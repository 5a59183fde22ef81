import LogRef.Proofs.Syntax.GrownCalls

/-!
# Between tokens

Between two tokens of a tree there are blanks and comments only. What is passed on over both therefore holds
where a token begins if it holds where the one before ends.
-/
namespace LogRef

/-- A comment may end here: with its own end, or with the line. -/
def endsComment (source : Bytes) (stop : Nat) : Bool :=
  (Bytes.ofString "*/").isSuffixOf (source.take stop) || (source.take stop).getLast? == some lineFeed ||
    source[stop]? == some lineFeed

namespace Node

mutual

/-- Every comment of a tree ends where a comment may. -/
def closesComments (source : Bytes) : Node → Bool
  | mk kind _ stop _ _ _ children =>
    (kind != .comment || endsComment source stop.toNat) && allCloseComments source children

def allCloseComments (source : Bytes) : List Node → Bool
  | [] => true
  | n :: rest => n.closesComments source && allCloseComments source rest

end

end Node

/-- Tokens between two positions such that what holds at the end of one holds at the beginning of the next. -/
def Spaced (holds : Int → Prop) : (lo hi : Int) → List Token → Prop
  | lo, hi, [] => holds lo → holds hi
  | lo, hi, t :: rest => (holds lo → holds t.start) ∧ Spaced holds t.stop hi rest

namespace Spaced

variable {holds : Int → Prop} {lo mid hi : Int} {ts us : List Token} {t u : Token}

theorem from_imp (h : Spaced holds mid hi ts) (hlo : holds lo → holds mid) : Spaced holds lo hi ts := by
  cases ts with
  | nil => exact fun hl => h (hlo hl)
  | cons t ts => exact ⟨fun hl => h.1 (hlo hl), h.2⟩

theorem append (ha : Spaced holds lo mid ts) (hb : Spaced holds mid hi us) :
    Spaced holds lo hi (ts ++ us) := by
  induction ts generalizing lo with
  | nil => exact hb.from_imp ha
  | cons t ts ih => exact ⟨ha.1, ih ha.2⟩

theorem single (t : Token) : Spaced holds t.start t.stop [t] := ⟨id, id⟩

/-- What holds at the end of a token holds at the beginning of the next one. -/
theorem next (h : Spaced holds lo hi (ts ++ t :: u :: us)) (ht : holds t.stop) : holds u.start := by
  induction ts generalizing lo with
  | nil => exact h.2.1 ht
  | cons s ts ih => exact ih h.2

end Spaced

section

variable {source : Bytes} {holds : Int → Prop}

/-- Bare bytes, when blanks are passed. -/
theorem piecesOf_spaced {bytes : Bytes} {position : Int}
    (hblank : ∀ (k : Nat) b, bytes[k]? = some b → isSpaceByte b = true → holds (position + k) →
      holds (position + k + 1)) :
    Spaced holds position (position + bytes.length) ((piecesOf position bytes).map (Piece.token source)) := by
  induction bytes generalizing position with
  | nil =>
    rw [List.length_nil, Int.natCast_zero, Int.add_zero]
    exact id
  | cons b bytes ih =>
    have hrest : Spaced holds (position + 1) (position + 1 + bytes.length)
        ((piecesOf (position + 1) bytes).map (Piece.token source)) := by
      refine ih fun k b hb hs hk => ?_
      have hnext := hblank (k + 1) b (by simpa using hb) hs
      rw [Int.natCast_add, Int.natCast_one, ← Int.add_assoc, Int.add_right_comm position k 1] at hnext
      exact hnext hk
    have hlen : position + ((b :: bytes).length : Int) = position + 1 + bytes.length := by
      rw [List.length_cons]
      omega
    rw [hlen, piecesOf_cons_eq]
    unfold joinPiece
    split
    · next hs =>
      have hfirst := hblank 0 b rfl hs
      rw [Int.natCast_zero, Int.add_zero] at hfirst
      exact hrest.from_imp hfirst
    · split
      · split
        · next p more hp =>
          split
          · rw [hp] at hrest
            exact ⟨id, hrest.2⟩
          · exact ⟨id, hrest⟩
        · next hp =>
          rw [hp] at hrest
          exact ⟨id, hrest⟩
      · exact ⟨id, hrest⟩

/-- Blanks of the source are passed from a position where something holds to the next one. -/
def PassesBlanks (source : Bytes) (holds : Int → Prop) : Prop :=
  ∀ (k : Nat) (b : UInt8), source[k]? = some b → isSpaceByte b = true → holds k → holds (k + 1)

theorem gapTokens_spaced (hblank : PassesBlanks source holds) {start stop : Int} (h0 : 0 ≤ start)
    (hle : start ≤ stop) (h1 : stop ≤ source.length) :
    Spaced holds start stop (gapTokens source start stop) := by
  have h : Spaced holds start (start + (bytesBetween source start stop).length)
      (gapTokens source start stop) := piecesOf_spaced fun k b hb hs hk => ?_
  · rwa [length_bytesBetween h0 hle h1] at h
  · rw [bytesBetween_eq h0, List.getElem?_drop, List.getElem?_take] at hb
    split at hb
    · have hcast : ((start.toNat + k : Nat) : Int) = start + k := by omega
      have := hblank (start.toNat + k) b hb hs
      rw [hcast] at this
      exact this hk
    · cases hb

namespace Node

variable {n c : Node}

theorem closesComments_child (h : n.closesComments source = true) (hc : c ∈ n.children) :
    c.closesComments source = true := by
  have hall : ∀ ns : List Node, allCloseComments source ns = true → c ∈ ns →
      c.closesComments source = true := by
    intro ns hns hmem
    induction ns with
    | nil => cases hmem
    | cons d ns ih =>
      rw [allCloseComments, Bool.and_eq_true] at hns
      rcases List.mem_cons.mp hmem with rfl | hmem
      · exact hns.1
      · exact ih hns.2 hmem
  cases n with
  | mk kind start stop isNamed hasError isMacroName children =>
    rw [closesComments, Bool.and_eq_true] at h
    exact hall children h.2 hc

theorem endsComment_of_closes (h : n.closesComments source = true) (hk : n.kind = .comment) :
    endsComment source n.stop.toNat = true := by
  cases n with
  | mk kind start stop isNamed hasError isMacroName children =>
    obtain rfl : kind = .comment := hk
    rw [closesComments, Bool.and_eq_true] at h
    exact h.1

/-- The tokens of a stretch are spaced if blanks and comments are passed. -/
theorem forestAmong_spaced (hblank : PassesBlanks source holds) {children : List Node}
    (hf : ∀ c ∈ children, c.Fits source)
    (hcomment : ∀ c ∈ children, c.kind = .comment → holds c.start → holds c.stop) {stop cursor : Int}
    (h0 : 0 ≤ cursor) (hle : cursor ≤ stop) (h1 : stop ≤ source.length) :
    Spaced holds cursor stop ((forestAmong source stop cursor children).map Part.token) := by
  induction children generalizing cursor with
  | nil =>
    rw [forestAmong, map_token_leaf]
    exact gapTokens_spaced hblank h0 hle h1
  | cons c rest ih =>
    have hrest := fun d hd => hf d (List.mem_cons_of_mem c hd)
    have hcomments := fun d hd => hcomment d (List.mem_cons_of_mem c hd)
    cases hp : c.isPassedOver cursor stop with
    | true =>
      rw [forestAmong_of_passed hp]
      exact ih hrest hcomments h0 hle
    | false =>
      obtain ⟨_, _, hstart, hstop⟩ := isPassedOver_eq_false_iff.mp hp
      have hc := hf c List.mem_cons_self
      have hown : Spaced holds c.start c.stop ((c.ownParts source).map Part.token) := by
        unfold ownParts
        split
        · next hk => exact hcomment c List.mem_cons_self hk
        · split <;> exact Spaced.single (c.token source)
      rw [forestAmong_of_kept hp, List.map_append, List.map_append, map_token_leaf]
      exact (gapTokens_spaced hblank h0 hstart (by have := hc.within; have := hc.le; omega)).append
        (hown.append (ih hrest hcomments (by have := hc.nonneg; have := hc.le; omega) hstop))

/-- An invocation among the tokens of a tree has the tokens of a bracketed tree below it. -/
theorem exists_tree_of_mem_forest {P : Node → Prop} (hchild : ∀ n c, P n → c ∈ n.children → P c) (n : Node)
    (hn : P n) (v : Invocation) (hv : v ∈ invocationsAmong [] (n.forest source)) : ∃ m, P m ∧ m.kind = .tokenTree ∧
      v.start = m.start ∧ v.stop = m.stop ∧ v.tokens = (m.forest source).map Part.token := by
  cases n with
  | mk kind start stop isNamed hasError isMacroName children =>
    rw [forest_eq] at hv
    obtain ⟨a, x, b, hxs, hx⟩ := mem_invocationsAmong hv
    rcases mem_forestAmong (hxs ▸ List.mem_append_right a List.mem_cons_self) with ⟨_, t, rfl⟩ | ⟨c, hc, hown⟩
    · rw [Part.invocations] at hx
      cases hx
    · unfold ownParts at hown
      split at hown
      · cases hown
      · split at hown
        · obtain rfl := List.mem_singleton.mp hown
          rw [Part.invocations] at hx
          have hcn := hchild _ c hn hc
          rcases List.mem_append.mp hx with hx | hx
          · obtain ⟨hk, hstart, hstop, htokens, _⟩ := mem_invocationBefore hx
            exact ⟨c, hcn, of_decide_eq_true hk, hstart, hstop, htokens⟩
          · have hmem : c ∈ children := hc
            exact exists_tree_of_mem_forest hchild c hcn v hx
        · obtain rfl := List.mem_singleton.mp hown
          rw [Part.invocations] at hx
          cases hx

/-- An invocation has the tokens of a bracketed tree, which is as the whole tree is. -/
theorem exists_tree_of_mem {P : Node → Prop} (hchild : ∀ n c, P n → c ∈ n.children → P c) (n : Node) (hn : P n)
    (v : Invocation) (hv : v ∈ n.invocations source) : ∃ m, P m ∧ m.kind = .tokenTree ∧
      v.start = m.start ∧ v.stop = m.stop ∧ v.tokens = (m.forest source).map Part.token := by
  cases n with
  | mk kind start stop isNamed hasError isMacroName children =>
    by_cases hk : (mk kind start stop isNamed hasError isMacroName children).kind = .tokenTree
    · rw [invocations_of_tokenTree hk] at hv
      exact exists_tree_of_mem_forest hchild _ hn v hv
    · rw [invocations_of_ne_tokenTree hk, List.mem_append] at hv
      rcases hv with hv | hv
      · rcases ownInvocations_cases source (mk kind start stop isNamed hasError isMacroName children) with
          hnone | ⟨_, _, tree, htree, htk, w, hown, _, hstart, hstop, htokens⟩
        · rw [hnone] at hv
          cases hv
        · rw [hown, List.mem_singleton] at hv
          subst hv
          exact ⟨tree, hchild _ tree hn htree, htk, hstart, hstop, htokens⟩
      · obtain ⟨c, hc, hv⟩ := mem_allInvocations.mp hv
        have hmem : c ∈ children := hc
        exact exists_tree_of_mem hchild c (hchild _ c hn hc) v hv

theorem Fits.opener (hf : n.Fits source) {v : Invocation} (hv : v ∈ n.invocations source) :
    isOpener (source.slice v.start (v.start + 1)) = true := by
  obtain ⟨m, hm, hk, hstart, _⟩ := exists_tree_of_mem (fun _ _ h hc => Fits.child h hc) n hf v hv
  exact hstart ▸ (hm.wellFormed.bracketed hk).opener

/-- The tokens of an invocation are spaced. -/
theorem Fits.spaced (hf : n.Fits source) (hn : n.closesComments source = true)
    (hblank : PassesBlanks source holds)
    (hcomment : ∀ k : Nat, k ≤ source.length → endsComment source k = true → holds k) {v : Invocation}
    (hv : v ∈ n.invocations source) :
    Spaced holds (v.start + 1) (v.stop - 1) v.tokens := by
  obtain ⟨m, ⟨hm, hmc⟩, hk, hstart, hstop, htokens⟩ :=
    exists_tree_of_mem (P := fun m => m.Fits source ∧ m.closesComments source = true)
      (fun _ _ h hc => ⟨h.1.child hc, closesComments_child h.2 hc⟩) n ⟨hf, hn⟩ v hv
  have hb := hm.wellFormed.bracketed hk
  have hlo := hm.innerStart_eq
  have hhi := hm.innerStop_eq
  rw [if_pos hk] at hlo hhi
  rw [htokens, hstart, hstop, forest_eq, hlo, hhi]
  have h0 := hm.nonneg
  have h1 := hm.within
  have hroom := hb.room
  refine forestAmong_spaced hblank (fun c hc => hm.child hc) (fun c hc hk _ => ?_) (by omega) (by omega)
    (by omega)
  have hcf := hm.child hc
  have hc0 := hcf.nonneg
  have hc1 := hcf.within
  have hle := hcf.le
  obtain ⟨k, hstop⟩ := Int.eq_ofNat_of_zero_le (show 0 ≤ c.stop by omega)
  have hends := endsComment_of_closes (closesComments_child hmc hc) hk
  rw [hstop, Int.toNat_natCast] at hends
  exact hstop ▸ hcomment k (by omega) hends

end Node

end

end LogRef
