import LogRef.Proofs.Syntax.Cut
import LogRef.Proofs.Syntax.Segments

/-!
# Tokens and comments tile a tree

Whatever the children of a tree are, as long as they do not go backwards: every byte between the brackets is in one
token or in one comment, or is a blank. Nothing is lost when the tokens are cut into arguments, either.
-/
namespace LogRef

def Token.isOver (p : Int) (t : Token) : Bool := t.start ≤ p && p < t.stop

namespace Node

def isCommentOver (p : Int) (n : Node) : Bool := n.kind = .comment && n.start ≤ p && p < n.stop

/-- The children that are not passed over on the way from `cursor` to `stop`. -/
def keptFrom (stop : Int) : (cursor : Int) → List Node → List Node
  | _, [] => []
  | cursor, c :: rest =>
    if c.isPassedOver cursor stop then keptFrom stop cursor rest else c :: keptFrom stop c.stop rest

/-- The children of a tree that are not passed over. -/
def kept (source : Bytes) (n : Node) : List Node :=
  keptFrom (innerStop source n.kind n.start n.stop) (innerStart source n.kind n.start) n.children

end Node

/-- How many tokens and comments are over an offset. -/
def holders (tokens : List Token) (nodes : List Node) (p : Int) : Nat :=
  tokens.countP (Token.isOver p) + nodes.countP (Node.isCommentOver p)

def IsBlankAt (source : Bytes) (p : Int) : Prop := ∃ b, source[p.toNat]? = some b ∧ isSpaceByte b = true

/-- Tokens in order and the comments among nodes, such that each byte from `lo` to `hi` is in one of them or a blank. -/
structure Tiled (source : Bytes) (lo hi : Int) (tokens : List Token) (nodes : List Node) : Prop where
  inOrder : TokensInOrder lo hi tokens
  covers : ∀ t ∈ tokens, t.Covers source
  within : ∀ c ∈ nodes, lo ≤ c.start ∧ c.stop ≤ hi
  filled : ∀ p, lo ≤ p → p < hi →
    holders tokens nodes p = 1 ∨ holders tokens nodes p = 0 ∧ IsBlankAt source p

section

variable {source : Bytes} {lo mid hi p : Int} {ts us : List Token} {cs ds : List Node} {t : Token}

theorem Token.isOver_iff : t.isOver p = true ↔ t.start ≤ p ∧ p < t.stop := by
  simp [Token.isOver]

theorem Node.isCommentOver_iff {c : Node} :
    c.isCommentOver p = true ↔ c.kind = .comment ∧ c.start ≤ p ∧ p < c.stop := by
  simp [Node.isCommentOver, and_assoc]

theorem holders_append (ts us : List Token) (cs ds : List Node) (p : Int) :
    holders (ts ++ us) (cs ++ ds) p = holders ts cs p + holders us ds p := by
  simp only [holders, List.countP_append]
  omega

theorem holders_eq_zero (ht : ∀ t ∈ ts, p < t.start ∨ t.stop ≤ p) (hc : ∀ c ∈ cs, p < c.start ∨ c.stop ≤ p) :
    holders ts cs p = 0 := by
  have htokens : ts.countP (Token.isOver p) = 0 := by
    refine List.countP_eq_zero.mpr fun t htm => ?_
    rw [Token.isOver_iff]
    have := ht t htm
    omega
  have hnodes : cs.countP (Node.isCommentOver p) = 0 := by
    refine List.countP_eq_zero.mpr fun c hcm => ?_
    rw [Node.isCommentOver_iff]
    have := hc c hcm
    omega
  rw [holders, htokens, hnodes]

theorem exists_of_holders (h : holders ts cs p ≠ 0) :
    (∃ t ∈ ts, t.start ≤ p ∧ p < t.stop) ∨ ∃ c ∈ cs, c.kind = .comment ∧ c.start ≤ p ∧ p < c.stop := by
  by_cases htokens : ts.countP (Token.isOver p) = 0
  · have hnodes : 0 < cs.countP (Node.isCommentOver p) := by
      unfold holders at h
      omega
    obtain ⟨c, hc, hover⟩ := List.countP_pos_iff.mp hnodes
    exact .inr ⟨c, hc, Node.isCommentOver_iff.mp hover⟩
  · obtain ⟨t, ht, hover⟩ := List.countP_pos_iff.mp (Nat.pos_of_ne_zero htokens)
    exact .inl ⟨t, ht, Token.isOver_iff.mp hover⟩

namespace Tiled

theorem append (h : Tiled source lo mid ts cs) (h' : Tiled source mid hi us ds) :
    Tiled source lo hi (ts ++ us) (cs ++ ds) := by
  have hlo := h.inOrder.le
  have hhi := h'.inOrder.le
  refine ⟨h.inOrder.append h'.inOrder, fun t ht => ?_, fun c hc => ?_, fun p hp hp' => ?_⟩
  · rcases List.mem_append.mp ht with ht | ht
    · exact h.covers t ht
    · exact h'.covers t ht
  · rcases List.mem_append.mp hc with hc | hc
    · have := h.within c hc
      omega
    · have := h'.within c hc
      omega
  · rw [holders_append]
    rcases Int.lt_or_le p mid with hmid | hmid
    · have hzero : holders us ds p = 0 := by
        refine holders_eq_zero (fun t ht => .inl ?_) (fun c hc => .inl ?_)
        · have := h'.inOrder.mem ht
          omega
        · have := h'.within c hc
          omega
      rw [hzero]
      exact h.filled p hp hmid
    · have hzero : holders ts cs p = 0 := by
        refine holders_eq_zero (fun t ht => .inr ?_) (fun c hc => .inr ?_)
        · have := h.inOrder.mem ht
          omega
        · have := h.within c hc
          omega
      rw [hzero, Nat.zero_add]
      exact h'.filled p hmid hp'

/-- A token and a comment have no byte in common. -/
theorem apart (h : Tiled source lo hi ts cs) (ht : t ∈ ts) {c : Node} (hc : c ∈ cs) (hk : c.kind = .comment) :
    t.stop ≤ c.start ∨ c.stop ≤ t.start ∨ c.stop ≤ c.start := by
  refine Classical.byContradiction fun hnot => ?_
  have hb := h.inOrder.mem ht
  have hin := h.within c hc
  obtain ⟨p, hp⟩ : ∃ p, p = max t.start c.start := ⟨_, rfl⟩
  have htoken : 0 < ts.countP (Token.isOver p) :=
    List.countP_pos_iff.mpr ⟨t, ht, Token.isOver_iff.mpr (by omega)⟩
  have hnode : 0 < cs.countP (Node.isCommentOver p) :=
    List.countP_pos_iff.mpr ⟨c, hc, Node.isCommentOver_iff.mpr ⟨hk, by omega, by omega⟩⟩
  have hfilled := h.filled p (by omega) (by omega)
  unfold holders at hfilled
  omega

/-- Right before a token there is a blank, another token or a comment. -/
theorem before (h : Tiled source lo hi ts cs) (ht : t ∈ ts) (hlt : lo < t.start) :
    IsBlankAt source (t.start - 1) ∨ (∃ u ∈ ts, u.stop = t.start) ∨
      ∃ c ∈ cs, c.kind = .comment ∧ c.stop = t.start := by
  have hb := h.inOrder.mem ht
  rcases h.filled (t.start - 1) (by omega) (by omega) with hone | ⟨_, hblank⟩
  · refine .inr ?_
    rcases exists_of_holders (by rw [hone]; decide) with ⟨u, hu, hle, hover⟩ | ⟨c, hc, hk, hle, hover⟩
    · refine .inl ⟨u, hu, ?_⟩
      rcases h.inOrder.apart ht hu with rfl | hapart <;> omega
    · refine .inr ⟨c, hc, hk, ?_⟩
      have := h.apart ht hc hk
      omega
  · exact .inl hblank

/-- And so there is right behind it. -/
theorem behind (h : Tiled source lo hi ts cs) (ht : t ∈ ts) (hlt : t.stop < hi) :
    IsBlankAt source t.stop ∨ (∃ u ∈ ts, u.start = t.stop) ∨
      ∃ c ∈ cs, c.kind = .comment ∧ c.start = t.stop := by
  have hb := h.inOrder.mem ht
  rcases h.filled t.stop (by omega) hlt with hone | ⟨_, hblank⟩
  · refine .inr ?_
    rcases exists_of_holders (by rw [hone]; decide) with ⟨u, hu, hle, hover⟩ | ⟨c, hc, hk, hle, hover⟩
    · refine .inl ⟨u, hu, ?_⟩
      have := h.inOrder.mem hu
      rcases h.inOrder.apart ht hu with rfl | hapart <;> omega
    · refine .inr ⟨c, hc, hk, ?_⟩
      have := h.apart ht hc hk
      omega
  · exact .inl hblank

end Tiled

theorem TokensInOrder.pairwise (h : TokensInOrder lo hi ts) : ts.Pairwise fun t u => t.stop ≤ u.start := by
  induction ts generalizing lo with
  | nil => exact List.Pairwise.nil
  | cons t ts ih => exact List.pairwise_cons.mpr ⟨fun u hu => (h.2.2.mem hu).1, ih h.2.2⟩

/-! ## Bare bytes -/

theorem countP_piecesOf_behind (source : Bytes) (position : Int) (bytes : Bytes) :
    ((piecesOf (position + 1) bytes).map (Piece.token source)).countP (Token.isOver position) = 0 := by
  refine List.countP_eq_zero.mpr fun t ht => ?_
  rw [Token.isOver_iff]
  have := (piecesOf_inOrder source (position + 1) bytes).mem ht
  omega

theorem countP_piecesOf_first (source : Bytes) (position : Int) (x : UInt8) (rest : Bytes) :
    ((piecesOf position (x :: rest)).map (Piece.token source)).countP (Token.isOver position) =
      if isSpaceByte x then 0 else 1 := by
  have hfree := countP_piecesOf_behind source position rest
  rcases piecesOf_cons position x rest with ⟨hs, h⟩ | ⟨kind, hs, _, _, h⟩ | ⟨p, more, hs, hp, _, hstart, h⟩
  · rw [h, hfree, hs]
    rfl
  · have hown : (Piece.token source ⟨kind, position, position + 1⟩).isOver position = true :=
      Token.isOver_iff.mpr ⟨Int.le_refl _, Int.lt_succ position⟩
    rw [h, List.map_cons, List.countP_cons, hfree, hown, hs]
    rfl
  · have horder := piecesOf_inOrder source (position + 1) rest
    rw [hp, List.map_cons] at hfree horder
    have hown : (Piece.token source ⟨.word, position, p.stop⟩).isOver position = true := by
      refine Token.isOver_iff.mpr ⟨Int.le_refl _, ?_⟩
      have := horder.2.1
      simp only [Piece.token] at this ⊢
      omega
    rw [List.countP_cons] at hfree
    rw [h, List.map_cons, List.countP_cons, hown, hs, Nat.eq_zero_of_add_eq_zero_right hfree]
    rfl

/-- A byte more in front changes nothing for the bytes behind it. -/
theorem countP_piecesOf_cons (source : Bytes) (position : Int) (x : UInt8) (rest : Bytes) (k : Nat) :
    ((piecesOf position (x :: rest)).map (Piece.token source)).countP (Token.isOver (position + 1 + k)) =
      ((piecesOf (position + 1) rest).map (Piece.token source)).countP (Token.isOver (position + 1 + k)) := by
  rcases piecesOf_cons position x rest with ⟨_, h⟩ | ⟨kind, _, _, _, h⟩ | ⟨p, more, _, hp, _, hstart, h⟩
  · rw [h]
  · have hown : ¬ (Piece.token source ⟨kind, position, position + 1⟩).isOver (position + 1 + k) = true := by
      rw [Token.isOver_iff]
      simp only [Piece.token]
      omega
    rw [h, List.map_cons, List.countP_cons, if_neg hown, Nat.add_zero]
  · -- the joined word is over the bytes behind its first as the word was that it has been joined to
    have hsame : (Piece.token source ⟨.word, position, p.stop⟩).isOver (position + 1 + k) =
        (Piece.token source p).isOver (position + 1 + k) := by
      rw [Bool.eq_iff_iff, Token.isOver_iff, Token.isOver_iff]
      simp only [Piece.token]
      omega
    rw [h, hp, List.map_cons, List.map_cons, List.countP_cons, List.countP_cons, hsame]

/-- The tokens of bare bytes that are over the byte at `position + k`: none if it is a blank, and else one. -/
theorem countP_piecesOf (source : Bytes) (position : Int) (bytes : Bytes) (k : Nat) {b : UInt8}
    (hb : bytes[k]? = some b) :
    ((piecesOf position bytes).map (Piece.token source)).countP (Token.isOver (position + k)) =
      if isSpaceByte b then 0 else 1 := by
  induction bytes generalizing position k with
  | nil => cases hb
  | cons x rest ih =>
    cases k with
    | zero =>
      obtain rfl : x = b := Option.some.inj hb
      rw [Int.natCast_zero, Int.add_zero]
      exact countP_piecesOf_first source position x rest
    | succ k =>
      rw [show position + ((k + 1 : Nat) : Int) = position + 1 + k by omega, countP_piecesOf_cons]
      exact ih (position + 1) k hb

theorem gapTokens_tiled (h0 : 0 ≤ lo) (hle : lo ≤ hi) (h1 : hi ≤ source.length) :
    Tiled source lo hi (gapTokens source lo hi) [] := by
  have hin := gapTokens_inOrder h0 hle h1
  refine ⟨hin, fun t ht => ?_, fun c hc => (List.not_mem_nil hc).elim, fun p hp hp' => ?_⟩
  · have hb := hin.mem ht
    obtain ⟨piece, _, rfl⟩ := List.mem_map.mp ht
    exact ⟨by omega, hb.2.1, by omega, rfl⟩
  · obtain ⟨b, hb⟩ : ∃ b, source[p.toNat]? = some b := by
      have hlt : p.toNat < source.length := by omega
      exact ⟨_, List.getElem?_eq_getElem hlt⟩
    have hget : (bytesBetween source lo hi)[(p - lo).toNat]? = some b := by
      rw [bytesBetween_eq h0, List.getElem?_drop, List.getElem?_take, if_pos (by omega),
        show lo.toNat + (p - lo).toNat = p.toNat by omega, hb]
    have hcount := countP_piecesOf source lo _ _ hget
    rw [show lo + ((p - lo).toNat : Int) = p by omega] at hcount
    have hholders : holders (gapTokens source lo hi) [] p = if isSpaceByte b then 0 else 1 := by
      rw [holders, List.countP_nil, Nat.add_zero]
      exact hcount
    rw [hholders]
    split
    · next hs => exact .inr ⟨rfl, b, hb, hs⟩
    · exact .inl rfl

/-- Two words of bare bytes do not touch. -/
theorem piecesOf_apart {position : Int} {bytes : Bytes} {q r : Piece} (hq : q ∈ piecesOf position bytes)
    (hr : r ∈ piecesOf position bytes) (hqk : q.kind = .word) (hrk : r.kind = .word) : q.stop ≠ r.start := by
  induction bytes generalizing position q r with
  | nil => cases hq
  | cons b rest ih =>
    have horder := piecesOf_inOrder [] (position + 1) rest
    have hbounds {x : Piece} (hx : x ∈ piecesOf (position + 1) rest) :
        position + 1 ≤ x.start ∧ x.start < x.stop := by
      have := horder.mem (List.mem_map_of_mem hx)
      simp only [Piece.token] at this
      omega
    rcases piecesOf_cons position b rest with ⟨_, h⟩ | ⟨kind, _, _, hnext, h⟩ | ⟨p, more, _, hp, hk, _, h⟩
    · exact ih (h ▸ hq) (h ▸ hr) hqk hrk
    · rw [h] at hq hr
      rcases List.mem_cons.mp hq with rfl | hq <;> rcases List.mem_cons.mp hr with rfl | hr
      · exact Int.ne_of_gt (Int.lt_succ position)
      · -- the piece behind it is no word that begins there, and all others begin later
        intro htouch
        cases hps : piecesOf (position + 1) rest with
        | nil =>
          rw [hps] at hr
          cases hr
        | cons p more =>
          rw [hps] at hr hnext
          rcases List.mem_cons.mp hr with rfl | hr
          · exact hnext hqk r rfl hrk htouch.symm
          · rw [hps, List.map_cons] at horder
            have hlater := horder.2.2.mem (List.mem_map_of_mem hr)
            have hfirst := hbounds (hps ▸ List.mem_cons_self)
            simp only [Piece.token] at hlater htouch
            omega
      · have := hbounds hq
        simp only
        omega
      · exact ih hq hr hqk hrk
    · have hpmem : p ∈ piecesOf (position + 1) rest := hp ▸ List.mem_cons_self
      have hmore {x : Piece} (hx : x ∈ more) : x ∈ piecesOf (position + 1) rest :=
        hp ▸ List.mem_cons_of_mem p hx
      rw [h] at hq hr
      rcases List.mem_cons.mp hq with rfl | hq <;> rcases List.mem_cons.mp hr with rfl | hr
      · have := hbounds hpmem
        simp only
        omega
      · have hapart : p.stop ≠ r.start := ih hpmem (hmore hr) hk hrk
        exact hapart
      · have := hbounds (hmore hq)
        simp only
        omega
      · exact ih (hmore hq) (hmore hr) hqk hrk

/-! ## Trees -/

namespace Node

variable {c n : Node} {stop cursor : Int}

theorem keptFrom_of_passed {rest : List Node} (h : c.isPassedOver cursor stop = true) :
    keptFrom stop cursor (c :: rest) = keptFrom stop cursor rest := by
  rw [keptFrom, if_pos h]

theorem keptFrom_of_kept {rest : List Node} (h : c.isPassedOver cursor stop = false) :
    keptFrom stop cursor (c :: rest) = c :: keptFrom stop c.stop rest := by
  rw [keptFrom, if_neg (Bool.eq_false_iff.mp h)]

theorem map_token_ownParts (source : Bytes) (c : Node) :
    (c.ownParts source).map Part.token = if c.kind = .comment then [] else [c.token source] := by
  unfold ownParts
  split
  · rfl
  · split <;> rfl

/-- A child is a tile by itself: its token, or the comment that it is. -/
theorem ownParts_tiled (h0 : 0 ≤ c.start) (hlt : c.start < c.stop) (h1 : c.stop ≤ source.length) :
    Tiled source c.start c.stop ((c.ownParts source).map Part.token) [c] := by
  have hwithin : ∀ d ∈ [c], c.start ≤ d.start ∧ d.stop ≤ c.stop := by
    intro d hd
    obtain rfl := List.mem_singleton.mp hd
    exact ⟨Int.le_refl _, Int.le_refl _⟩
  rw [map_token_ownParts]
  by_cases hk : c.kind = .comment
  · rw [if_pos hk]
    refine ⟨Int.le_of_lt hlt, fun t ht => (List.not_mem_nil ht).elim, hwithin, fun p hp hp' => .inl ?_⟩
    rw [holders, List.countP_nil, List.countP_singleton, if_pos (isCommentOver_iff.mpr ⟨hk, hp, hp'⟩)]
  · rw [if_neg hk]
    refine ⟨⟨Int.le_refl _, hlt, Int.le_refl _⟩, fun t ht => ?_, hwithin, fun p hp hp' => .inl ?_⟩
    · obtain rfl := List.mem_singleton.mp ht
      exact ⟨h0, hlt, h1, rfl⟩
    · rw [holders, List.countP_singleton, List.countP_singleton, if_pos (Token.isOver_iff.mpr ⟨hp, hp'⟩),
        if_neg fun h => hk (isCommentOver_iff.mp h).1]

/-- The tokens of a stretch and the children that are kept tile it. -/
theorem forestAmong_tiled {children : List Node} (hforward : Forward children) (h0 : 0 ≤ cursor)
    (hle : cursor ≤ stop) (h1 : stop ≤ source.length) :
    Tiled source cursor stop ((forestAmong source stop cursor children).map Part.token)
      (keptFrom stop cursor children) := by
  induction children generalizing cursor with
  | nil =>
    rw [forestAmong, map_token_leaf, keptFrom]
    exact gapTokens_tiled h0 hle h1
  | cons c rest ih =>
    have hrest : Forward rest := fun d hd => hforward d (List.mem_cons_of_mem c hd)
    cases hp : c.isPassedOver cursor stop with
    | true =>
      rw [forestAmong_of_passed hp, keptFrom_of_passed hp]
      exact ih hrest h0 hle
    | false =>
      obtain ⟨hnamed, hne, hcur, hstop⟩ := isPassedOver_eq_false_iff.mp hp
      have hc := hforward c List.mem_cons_self hnamed
      have hgap : Tiled source cursor c.start (gapTokens source cursor c.start) [] :=
        gapTokens_tiled h0 hcur (by omega)
      have hown : Tiled source c.start c.stop ((c.ownParts source).map Part.token) [c] :=
        ownParts_tiled (by omega) (by omega) (by omega)
      rw [forestAmong_of_kept hp, keptFrom_of_kept hp, List.map_append, List.map_append, map_token_leaf]
      exact hgap.append (hown.append (ih hrest (by omega) hstop))

/-- Words that touch are not both bare. -/
theorem forestAmong_words {children : List Node} (hforward : Forward children) (h0 : 0 ≤ cursor)
    (h1 : stop ≤ source.length) {t u : Token}
    (ht : t ∈ (forestAmong source stop cursor children).map Part.token)
    (hu : u ∈ (forestAmong source stop cursor children).map Part.token) (htk : t.kind = .word)
    (huk : u.kind = .word) (htouch : t.stop = u.start) :
    ∃ c ∈ keptFrom stop cursor children, c.kind ≠ .comment ∧ (t = c.token source ∨ u = c.token source) := by
  have hbare {a b : Int} (ht : t ∈ gapTokens source a b) (hu : u ∈ gapTokens source a b) : False := by
    obtain ⟨q, hq, rfl⟩ := List.mem_map.mp ht
    obtain ⟨r, hr, rfl⟩ := List.mem_map.mp hu
    exact piecesOf_apart hq hr htk huk htouch
  induction children generalizing cursor with
  | nil =>
    rw [forestAmong, map_token_leaf] at ht hu
    exact (hbare ht hu).elim
  | cons c rest ih =>
    have hrest : Forward rest := fun d hd => hforward d (List.mem_cons_of_mem c hd)
    cases hp : c.isPassedOver cursor stop with
    | true =>
      rw [forestAmong_of_passed hp] at ht hu
      rw [keptFrom_of_passed hp]
      exact ih hrest h0 ht hu
    | false =>
      obtain ⟨hnamed, hne, hcur, hstop⟩ := isPassedOver_eq_false_iff.mp hp
      have hc := hforward c List.mem_cons_self hnamed
      have hgap : TokensInOrder cursor c.start (gapTokens source cursor c.start) :=
        gapTokens_inOrder h0 hcur (by omega)
      have hmore : TokensInOrder c.stop stop ((forestAmong source stop c.stop rest).map Part.token) :=
        (forestAmong_tiled hrest (by omega) hstop h1).inOrder
      have hown {x : Token} (hx : x ∈ (c.ownParts source).map Part.token) :
          c.kind ≠ .comment ∧ x = c.token source := by
        rw [map_token_ownParts] at hx
        split at hx
        · cases hx
        · next hk => exact ⟨hk, List.mem_singleton.mp hx⟩
      rw [forestAmong_of_kept hp, List.map_append, List.map_append, map_token_leaf, List.mem_append,
        List.mem_append] at ht hu
      rw [keptFrom_of_kept hp]
      rcases ht with ht | ht | ht
      · rcases hu with hu | hu | hu
        · exact (hbare ht hu).elim
        · exact ⟨c, List.mem_cons_self, (hown hu).1, .inr (hown hu).2⟩
        · -- a node lies between them
          have := hgap.mem ht
          have := hmore.mem hu
          omega
      · exact ⟨c, List.mem_cons_self, (hown ht).1, .inl (hown ht).2⟩
      · rcases hu with hu | hu | hu
        · have := hmore.mem ht
          have := hgap.mem hu
          omega
        · exact ⟨c, List.mem_cons_self, (hown hu).1, .inr (hown hu).2⟩
        · obtain ⟨d, hd, hall⟩ := ih hrest (by omega) ht hu
          exact ⟨d, List.mem_cons_of_mem c hd, hall⟩

/-- Nothing fits in where the end comes before the beginning. -/
theorem forestAmong_of_lt {children : List Node} (hforward : Forward children) (h0 : 0 ≤ cursor)
    (hlt : stop < cursor) : forestAmong source stop cursor children = [] := by
  have hpassed : ∀ c ∈ children, c.isPassedOver cursor stop = true := by
    intro c hc
    refine Bool.of_not_eq_false fun hp => ?_
    obtain ⟨hnamed, _, hcur, hstop⟩ := isPassedOver_eq_false_iff.mp hp
    have := hforward c hc hnamed
    omega
  have hbytes : bytesBetween source cursor stop = [] := by
    rw [bytesBetween_eq h0]
    refine List.drop_eq_nil_of_le ?_
    rw [List.length_take]
    omega
  rw [forestAmong_of_all_passed hpassed, gapTokens, hbytes]
  rfl

theorem keptFrom_sublist (stop cursor : Int) (children : List Node) :
    (keptFrom stop cursor children).Sublist children := by
  induction children generalizing cursor with
  | nil => exact .slnil
  | cons c rest ih =>
    cases hp : c.isPassedOver cursor stop with
    | true =>
      rw [keptFrom_of_passed hp]
      exact (ih cursor).cons c
    | false =>
      rw [keptFrom_of_kept hp]
      exact (ih c.stop).cons_cons c

/-- What the tokens of a tree are. -/
structure Tokenized (source : Bytes) (n : Node) (tokens : List Token) : Prop where
  /-- They are not empty, and their texts are the bytes that they cover. -/
  nonempty : ∀ t ∈ tokens, t.start < t.stop
  text : ∀ t ∈ tokens, t.text = source.slice t.start t.stop
  /-- They come one after the other, inside of the brackets. -/
  ordered : tokens.Pairwise fun t u => t.stop ≤ u.start
  inside : ∀ t ∈ tokens,
    innerStart source n.kind n.start ≤ t.start ∧ t.stop ≤ innerStop source n.kind n.start n.stop
  /-- Every byte there is in one token or in one comment among the children, and else a blank. -/
  accepted : (n.kept source).Sublist n.children
  filled : ∀ p, innerStart source n.kind n.start ≤ p → p < innerStop source n.kind n.start n.stop →
    holders tokens (n.kept source) p = 1 ∨ holders tokens (n.kept source) p = 0 ∧ IsBlankAt source p
  /-- Words that touch are not both from the bytes between two nodes. -/
  words : ∀ t ∈ tokens, ∀ u ∈ tokens, t.kind = .word → u.kind = .word → t.stop = u.start →
    ∃ c ∈ n.kept source, c.kind ≠ .comment ∧ (t = c.token source ∨ u = c.token source)
  /-- The arguments with their separators are the tokens again, but for the places of the separators. -/
  rejoined : (segmentsOf tokens).flatMap Segment.marks = tokens.map Token.mark
  /-- Only the last argument can be without a separator, and then there is something in it. -/
  closed : ∀ front s back, segmentsOf tokens = front ++ s :: back → s.terminator = none →
    back = [] ∧ s.tokens ≠ []

/-- Reading the tokens of a tree inside of its source works, and it loses and duplicates nothing, whatever the
children of the tree are. -/
theorem tokens_lose_nothing (source : Bytes) (n : Node) (h0 : 0 ≤ n.start) (h1 : n.stop ≤ source.length)
    (hforward : ∀ c ∈ n.children, c.isNamed = true → c.start ≤ c.stop) :
    ∃ tokens, n.tokens source = .ok tokens ∧ n.Tokenized source tokens := by
  have hs := innerStart_cases source n.kind n.start
  have he := innerStop_cases source n.kind n.start n.stop
  have haccepted : (n.kept source).Sublist n.children := keptFrom_sublist _ _ _
  refine ⟨_, tokens_eq h0 h1 hforward, ?_⟩
  rw [forest_eq]
  rcases Int.lt_or_le (innerStop source n.kind n.start n.stop) (innerStart source n.kind n.start) with hlt | hle
  · -- one byte that is both brackets: there is nothing between them
    rw [forestAmong_of_lt hforward (by omega) hlt]
    exact
      { nonempty := fun t ht => (List.not_mem_nil ht).elim
        text := fun t ht => (List.not_mem_nil ht).elim
        ordered := List.Pairwise.nil
        inside := fun t ht => (List.not_mem_nil ht).elim
        accepted := haccepted
        filled := fun p hp hp' => by omega
        words := fun t ht => (List.not_mem_nil ht).elim
        rejoined := flatMap_marks_segmentsOf []
        closed := fun _ _ _ => segmentsOf_last }
  · have htiled : Tiled source _ _ _ _ := forestAmong_tiled hforward (by omega) hle (by omega)
    exact
      { nonempty := fun t ht => (htiled.covers t ht).nonempty
        text := fun t ht => (htiled.covers t ht).text
        ordered := htiled.inOrder.pairwise
        inside := fun t ht => ⟨(htiled.inOrder.mem ht).1, (htiled.inOrder.mem ht).2.2⟩
        accepted := haccepted
        filled := htiled.filled
        words := fun t ht u hu => forestAmong_words hforward (by omega) (by omega) ht hu
        rejoined := flatMap_marks_segmentsOf _
        closed := fun _ _ _ => segmentsOf_last }

end Node

/-- A tree with children that overlap, have no width or no name, or are not inside of it, and with a word of which
the first half is a node. -/
def untidyTree : Node :=
  .mk .tokenTree 0 13 true false false
    [.mk .identifier 1 2 true false false [], .mk .other 1 5 true false false [],
      .mk .stringLiteral 20 30 true false false [], .mk .comment 4 9 true false false [],
      .mk .identifier 9 9 true false false [], .mk .other 9 10 false false false [],
      .mk .stringLiteral 9 12 true false false []]

theorem untidy_tokens_lose_nothing :
    ∃ tokens, untidyTree.tokens (Bytes.ofString "(ab,/*;*/\"s\")") = .ok tokens ∧
      untidyTree.Tokenized (Bytes.ofString "(ab,/*;*/\"s\")") tokens ∧
      tokens.map (fun t => (t.start, t.stop)) = [(1, 2), (2, 3), (3, 4), (9, 12)] := by
  obtain ⟨tokens, htokens, htokenized⟩ := Node.tokens_lose_nothing (Bytes.ofString "(ab,/*;*/\"s\")") untidyTree
    (by decide) (by decide +kernel) (by decide)
  have hranges : ((untidyTree.tokens (Bytes.ofString "(ab,/*;*/\"s\")")).toOption.map
      fun ts => ts.map fun t => (t.start, t.stop)) = some [(1, 2), (2, 3), (3, 4), (9, 12)] := by
    decide +kernel
  rw [htokens] at hranges
  exact ⟨tokens, htokens, htokenized, Option.some.inj hranges⟩

end

end LogRef
