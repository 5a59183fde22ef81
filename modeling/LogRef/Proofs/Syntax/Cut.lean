import LogRef.Proofs.Syntax.WellFormed

/-!
# Reading a tree in two pieces

The tokens of a stretch are those of its two halves, when the cut goes through no node and no word ends
right before it.
-/
namespace LogRef

/-- No word ends right before an offset. -/
def IsBreak (source : Bytes) (q : Int) : Prop :=
  ∀ b ∈ (source.take q.toNat).getLast?, isWordByte b = false

/-- Whether a node can be a token of its parent at all. -/
def Node.counts (c : Node) : Bool := c.isNamed && c.start != c.stop

section

variable {source : Bytes}

/-- The pieces from a byte on, given those behind it. -/
def joinPiece (position : Int) (b : UInt8) (pieces : List Piece) : List Piece :=
  if isSpaceByte b then pieces
  else if isWordByte b then
    match pieces with
    | p :: more =>
      if p.kind = .word ∧ p.start = position + 1 then ⟨.word, position, p.stop⟩ :: more
      else ⟨.word, position, position + 1⟩ :: pieces
    | [] => [⟨.word, position, position + 1⟩]
  else ⟨if isPunctByte b then .punct else .atom, position, position + 1⟩ :: pieces

theorem piecesOf_cons_eq (position : Int) (b : UInt8) (rest : Bytes) :
    piecesOf position (b :: rest) = joinPiece position b (piecesOf (position + 1) rest) := by
  rw [piecesOf]
  rfl

/-- A byte does not reach past the piece behind it, nor to one that is too far away. -/
theorem joinPiece_append {position : Int} (b : UInt8) {front back : List Piece}
    (h : front = [] → isWordByte b = true → ∀ p ∈ back, p.start ≠ position + 1) :
    joinPiece position b (front ++ back) = joinPiece position b front ++ back := by
  unfold joinPiece
  cases isSpaceByte b with
  | true => rfl
  | false =>
    cases hb : isWordByte b with
    | false => rfl
    | true =>
      cases front with
      | cons p more =>
        by_cases hp : p.kind = .word ∧ p.start = position + 1 <;> simp [hp]
      | nil =>
        cases back with
        | nil => rfl
        | cons p more =>
          have hp : ¬ (p.kind = .word ∧ p.start = position + 1) := fun hc =>
            h rfl hb p List.mem_cons_self hc.2
          simp [hp]

theorem piecesOf_append {a : Bytes} (h : ∀ x ∈ a.getLast?, isWordByte x = false) (position : Int)
    (b : Bytes) :
    piecesOf position (a ++ b) = piecesOf position a ++ piecesOf (position + a.length) b := by
  induction a generalizing position with
  | nil => simp [piecesOf]
  | cons x a ih =>
    have hlen : position + ((x :: a).length : Int) = position + 1 + a.length := by
      simp only [List.length_cons]
      omega
    have hlast : ∀ y ∈ a.getLast?, isWordByte y = false := by
      intro y hy
      refine h y ?_
      rw [List.getLast?_cons, Option.mem_def.mp hy]
      rfl
    rw [hlen, List.cons_append, piecesOf_cons_eq, piecesOf_cons_eq, ih hlast]
    refine joinPiece_append x fun _ hx p hp => ?_
    have hb := (piecesOf_inOrder [] _ b).mem (List.mem_map_of_mem hp)
    simp only [Piece.token] at hb
    cases a with
    | nil => exact absurd (h x rfl) (by rw [hx]; decide)
    | cons y a =>
      simp only [List.length_cons] at hb
      omega

theorem gapTokens_cut {a q b : Int} (h0 : 0 ≤ a) (haq : a ≤ q) (hqb : q ≤ b)
    (h1 : b ≤ source.length) (hq : IsBreak source q) :
    gapTokens source a b = gapTokens source a q ++ gapTokens source q b := by
  have hsplit : bytesBetween source a b = bytesBetween source a q ++ bytesBetween source q b := by
    rw [bytesBetween_eq h0, bytesBetween_eq h0, bytesBetween_eq (Int.le_trans h0 haq)]
    have htake : source.take b.toNat =
        source.take q.toNat ++ (source.take b.toNat).drop q.toNat := by
      have h := List.take_append_drop q.toNat (source.take b.toNat)
      rwa [List.take_take, Nat.min_eq_left (Int.toNat_le_toNat hqb), eq_comm] at h
    have hlen : a.toNat ≤ (source.take q.toNat).length := by
      rw [List.length_take]
      omega
    conv => lhs; rw [htake]
    rw [List.drop_append_of_le_length hlen]
  have hlast : ∀ x ∈ (bytesBetween source a q).getLast?, isWordByte x = false := by
    intro x hx
    refine hq x ?_
    rw [bytesBetween_eq h0] at hx
    rw [List.getLast?_drop] at hx
    split at hx
    · cases hx
    · exact hx
  have hlen := length_bytesBetween h0 haq (Int.le_trans hqb h1)
  unfold gapTokens
  rw [hsplit, piecesOf_append hlast, hlen, List.map_append]

namespace Node

theorem isPassedOver_of_not_counts {c : Node} (h : c.counts = false) (cursor stop : Int) :
    c.isPassedOver cursor stop = true := by
  unfold counts at h
  unfold isPassedOver
  cases hn : c.isNamed with
  | false => rfl
  | true =>
    rw [hn, Bool.true_and, bne_eq_false_iff_eq] at h
    simp [h]

theorem isPassedOver_iff {c : Node} (hc : c.counts = true) {cursor stop : Int} :
    c.isPassedOver cursor stop = true ↔ c.start < cursor ∨ stop < c.stop := by
  unfold counts at hc
  simp only [Bool.and_eq_true, bne_iff_ne, ne_eq] at hc
  simp [isPassedOver, hc.1, hc.2]

theorem counts_of_kept {c : Node} {cursor stop : Int} (h : c.isPassedOver cursor stop = false) :
    c.counts = true := by
  cases hc : c.counts with
  | true => rfl
  | false => rw [isPassedOver_of_not_counts hc] at h; cases h

theorem kept_of_counts {c : Node} {cursor stop : Int} (hc : c.counts = true) (hlo : cursor ≤ c.start)
    (hhi : c.stop ≤ stop) : c.isPassedOver cursor stop = false := by
  rw [Bool.eq_false_iff, ne_eq, isPassedOver_iff hc]
  omega

/-- A node beside a stretch is passed over in it. -/
theorem isPassedOver_of_apart {c : Node} {cursor stop : Int} (hle : c.start ≤ c.stop)
    (h : c.stop ≤ cursor ∨ stop ≤ c.start) : c.isPassedOver cursor stop = true := by
  cases hcounts : c.counts with
  | false => exact isPassedOver_of_not_counts hcounts _ _
  | true =>
    have hne : c.start ≠ c.stop := by
      simp only [counts, Bool.and_eq_true, bne_iff_ne, ne_eq] at hcounts
      exact hcounts.2
    rw [isPassedOver_iff hcounts]
    omega

/-- What is passed over in a stretch is passed over in every part of it. -/
theorem isPassedOver_mono {c : Node} {cursor stop cursor' stop' : Int} (h : c.isPassedOver cursor stop = true)
    (hlo : cursor ≤ cursor') (hhi : stop' ≤ stop) : c.isPassedOver cursor' stop' = true := by
  cases hcounts : c.counts with
  | false => exact isPassedOver_of_not_counts hcounts _ _
  | true =>
    rw [isPassedOver_iff hcounts] at h ⊢
    omega

/-- Where all nodes are passed over, bare bytes are left. -/
theorem forestAmong_of_all_passed {cursor stop : Int} {cs : List Node}
    (h : ∀ c ∈ cs, c.isPassedOver cursor stop = true) :
    forestAmong source stop cursor cs = (gapTokens source cursor stop).map .leaf := by
  induction cs with
  | nil => rw [forestAmong]
  | cons c cs ih =>
    rw [forestAmong_of_passed (h c List.mem_cons_self)]
    exact ih fun d hd => h d (List.mem_cons_of_mem c hd)

/-- Nodes that are passed over from any cursor on can be left out. -/
theorem forestAmong_filter {stop : Int} (keep : Node → Bool) {cs : List Node} {cursor : Int}
    (hle : ∀ c ∈ cs, c.start ≤ c.stop)
    (h : ∀ c ∈ cs, keep c = false → ∀ x, cursor ≤ x → c.isPassedOver x stop = true) :
    forestAmong source stop cursor (cs.filter keep) = forestAmong source stop cursor cs := by
  induction cs generalizing cursor with
  | nil => rfl
  | cons c cs ih =>
    have hrest : ∀ x, cursor ≤ x → forestAmong source stop x (cs.filter keep) =
        forestAmong source stop x cs := fun x hx =>
      ih (fun d hd => hle d (List.mem_cons_of_mem c hd)) fun d hd hk y hy =>
        h d (List.mem_cons_of_mem c hd) hk y (Int.le_trans hx hy)
    cases hk : keep c with
    | false =>
      rw [List.filter_cons_of_neg (by rw [hk]; decide), hrest cursor (Int.le_refl cursor),
        forestAmong_of_passed (h c List.mem_cons_self hk cursor (Int.le_refl cursor))]
    | true =>
      rw [List.filter_cons_of_pos hk]
      cases hp : c.isPassedOver cursor stop with
      | true => rw [forestAmong_of_passed hp, forestAmong_of_passed hp, hrest cursor (Int.le_refl _)]
      | false =>
        have hge := (isPassedOver_eq_false_iff.mp hp).2.2.1
        have hc := hle c List.mem_cons_self
        rw [forestAmong_of_kept hp, forestAmong_of_kept hp, hrest c.stop (by omega)]

/-- Reading in two pieces. Nodes behind the cut have only such nodes after them. -/
theorem forestAmong_cut {cursor q stop : Int} {cs : List Node} (h0 : 0 ≤ cursor) (hcq : cursor ≤ q)
    (hqs : q ≤ stop) (h1 : stop ≤ source.length) (hq : IsBreak source q)
    (hle : ∀ c ∈ cs, c.start ≤ c.stop)
    (hside : ∀ c ∈ cs, c.isPassedOver cursor stop = false → c.stop ≤ q ∨ q ≤ c.start)
    (hsorted : cs.Pairwise fun c d => c.counts = true → d.counts = true → q ≤ c.start → q ≤ d.start) :
    forestAmong source stop cursor cs =
      forestAmong source q cursor cs ++ forestAmong source stop q cs := by
  induction cs generalizing cursor with
  | nil => simp only [forestAmong, gapTokens_cut h0 hcq hqs h1 hq, List.map_append]
  | cons c cs ih =>
    have hle' : ∀ d ∈ cs, d.start ≤ d.stop := fun d hd => hle d (List.mem_cons_of_mem c hd)
    obtain ⟨hbehind, hsorted'⟩ := List.pairwise_cons.mp hsorted
    cases hp : c.isPassedOver cursor stop with
    | true =>
      rw [forestAmong_of_passed hp, forestAmong_of_passed (isPassedOver_mono hp (Int.le_refl _) hqs),
        forestAmong_of_passed (isPassedOver_mono hp hcq (Int.le_refl _))]
      exact ih h0 hcq hle' (fun d hd => hside d (List.mem_cons_of_mem c hd)) hsorted'
    | false =>
      have hc := counts_of_kept hp
      obtain ⟨_, hne, hge, hend⟩ := isPassedOver_eq_false_iff.mp hp
      have hcle := hle c List.mem_cons_self
      rcases hside c List.mem_cons_self hp with hbefore | hafter
      · rw [forestAmong_of_kept hp, forestAmong_of_kept (kept_of_counts hc hge hbefore),
          forestAmong_of_passed (isPassedOver_of_apart hcle (.inl hbefore)),
          ih (by omega) hbefore hle' _ hsorted', List.append_assoc, List.append_assoc]
        intro d hd hdp
        refine hside d (List.mem_cons_of_mem c hd) (Bool.eq_false_iff.mpr fun h => ?_)
        rw [isPassedOver_mono h (by omega) (Int.le_refl _)] at hdp
        cases hdp
      · have hfront : ∀ d ∈ c :: cs, d.isPassedOver cursor q = true := by
          intro d hd
          cases hdc : d.counts with
          | false => exact isPassedOver_of_not_counts hdc _ _
          | true =>
            refine isPassedOver_of_apart (hle d hd) (.inr ?_)
            rcases List.mem_cons.mp hd with rfl | hd
            · exact hafter
            · exact hbehind d hd hc hdc hafter
        rw [forestAmong_of_all_passed hfront, forestAmong_of_kept hp,
          forestAmong_of_kept (kept_of_counts hc hafter hend), gapTokens_cut h0 hcq hafter (by omega) hq,
          List.map_append, List.append_assoc]

end Node

end

end LogRef
