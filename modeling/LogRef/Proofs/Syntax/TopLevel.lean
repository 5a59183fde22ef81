import Mathlib.Data.List.Basic
import LogRef.Proofs.Syntax.CallLayout

/-!
# Only separators at the top level count

Where the parts of a call are does not depend on what is inside of the string literals, trees and comments of its
argument tree: two sources that differ only there have calls with the same outline.
-/
namespace LogRef

/-- A string literal, a tree or a comment. Nodes of these kinds are named. -/
def Node.isEnclosure (n : Node) : Bool := n.isNamed && (n.kind = .stringLiteral || n.isTree || n.kind = .comment)

/-- Two sources that differ, from `lo` to `hi`, only inside of such nodes. -/
def SameOutside (a b : Bytes) (lo hi : Int) (nodes : List Node) : Prop :=
  ∀ k : Nat, lo ≤ k → k < hi → a[k]? ≠ b[k]? → ∃ c ∈ nodes, c.isEnclosure = true ∧ c.start ≤ k ∧ k < c.stop

/-- The token at the same place of another source. -/
def Token.reread (source : Bytes) (t : Token) : Token := { t with text := source.slice t.start t.stop }

section

variable {a b : Bytes} {lo hi : Int}

theorem Bytes.slice_congr (h0 : 0 ≤ lo) (hle : lo ≤ hi) (h : ∀ k : Nat, lo ≤ k → k < hi → a[k]? = b[k]?) :
    a.slice lo hi = b.slice lo hi := by
  rw [Bytes.slice_eq h0 (by omega), Bytes.slice_eq h0 (by omega)]
  refine List.ext_getElem? fun k => ?_
  rw [List.getElem?_drop, List.getElem?_drop, List.getElem?_take, List.getElem?_take]
  split
  · next hk => exact h _ (by omega) (by omega)
  · rfl

/-! ## Tokens of the other source -/

theorem SameOutside.slice_eq (h : SameOutside a b lo hi []) (h0 : 0 ≤ lo) (hle : lo ≤ hi) :
    a.slice lo hi = b.slice lo hi := by
  refine Bytes.slice_congr h0 hle fun k hlo hhi => ?_
  refine Classical.byContradiction fun hne => ?_
  obtain ⟨c, hc, _⟩ := h k hlo hhi hne
  exact List.not_mem_nil hc

theorem SameOutside.part {nodes some : List Node} {lo' hi' : Int} (h : SameOutside a b lo hi nodes)
    (hlo : lo ≤ lo') (hhi : hi' ≤ hi)
    (hsome : ∀ c ∈ nodes, c.isEnclosure = true → c ∈ some ∨ hi' ≤ c.start ∨ c.stop ≤ lo') :
    SameOutside a b lo' hi' some := by
  intro k hk hk' hne
  obtain ⟨c, hc, henclosure, hstart, hstop⟩ := h k (by omega) (by omega) hne
  rcases hsome c hc henclosure with hmem | hout
  · exact ⟨c, hmem, henclosure, hstart, hstop⟩
  · omega

theorem Node.isNamed_of_isEnclosure {n : Node} (h : n.isEnclosure = true) : n.isNamed = true :=
  (Bool.and_eq_true_iff.mp h).1

/-- Where two sources are the same, so are their tokens of bare bytes. -/
theorem gapTokens_reread (h : SameOutside a b lo hi []) (h0 : 0 ≤ lo) (hle : lo ≤ hi) (h1 : hi ≤ a.length) :
    gapTokens b lo hi = (gapTokens a lo hi).map (Token.reread b) ∧
      ∀ t ∈ gapTokens a lo hi, t.Alike (t.reread b) := by
  have hbytes : bytesBetween a lo hi = bytesBetween b lo hi := by
    rw [bytesBetween_eq h0, bytesBetween_eq h0, ← Bytes.slice_eq h0 (by omega), ← Bytes.slice_eq h0 (by omega)]
    exact h.slice_eq h0 hle
  constructor
  · rw [gapTokens, gapTokens, hbytes, List.map_map]
    rfl
  · intro t ht
    have hb := (gapTokens_inOrder h0 hle h1).mem ht
    have hsame : SameOutside a b t.start t.stop [] :=
      h.part hb.1 hb.2.2 fun c hc => (List.not_mem_nil hc).elim
    obtain ⟨piece, _, rfl⟩ := List.mem_map.mp ht
    exact ⟨rfl, fun _ _ => (hsame.slice_eq (by omega) (by omega)).symm⟩

theorem SameOutside.tail {c : Node} {rest : List Node} (h : SameOutside a b lo hi (c :: rest))
    (hc : c.isEnclosure = true → c.start = c.stop) : SameOutside a b lo hi rest := by
  intro k hk hk' hne
  obtain ⟨d, hd, henclosure, hstart, hstop⟩ := h k hk hk' hne
  rcases List.mem_cons.mp hd with rfl | hd
  · have := hc henclosure
    omega
  · exact ⟨d, hd, henclosure, hstart, hstop⟩

/-- Where the sources are the same around a child: before it, inside of it unless it is an enclosure, and behind it
outside of the nodes that follow. -/
theorem SameOutside.around {c : Node} {rest : List Node} (h : SameOutside a b lo hi (c :: rest)) (hlo : lo ≤ c.start)
    (hle : c.start ≤ c.stop) (hrest : Node.InOrder c.stop hi (rest.filter Node.isNamed)) :
    SameOutside a b lo c.start [] ∧ (c.isEnclosure = false → SameOutside a b c.start c.stop []) ∧
      SameOutside a b c.stop hi rest := by
  have hhi := hrest.le
  have hlater {d : Node} (hd : d ∈ rest) (henclosure : d.isEnclosure = true) : c.stop ≤ d.start :=
    (hrest.mem (List.mem_filter.mpr ⟨hd, Node.isNamed_of_isEnclosure henclosure⟩)).1
  refine ⟨?_, fun hplain => ?_, ?_⟩
  · refine h.part (Int.le_refl _) (by omega) fun d hd henclosure => .inr (.inl ?_)
    rcases List.mem_cons.mp hd with rfl | hd
    · exact Int.le_refl _
    · exact Int.le_trans hle (hlater hd henclosure)
  · refine h.part hlo hhi fun d hd henclosure => .inr (.inl ?_)
    rcases List.mem_cons.mp hd with rfl | hd
    · rw [hplain] at henclosure
      cases henclosure
    · exact hlater hd henclosure
  · refine h.part (by omega) (Int.le_refl _) fun d hd _ => ?_
    rcases List.mem_cons.mp hd with rfl | hd
    · exact .inr (.inr (Int.le_refl _))
    · exact .inl hd

/-- A child that is passed over has no name, or there is nothing in it. -/
theorem Node.InOrder.of_passed {c : Node} {rest : List Node} (h : InOrder lo hi ((c :: rest).filter Node.isNamed))
    (hp : c.isPassedOver lo hi = true) :
    InOrder lo hi (rest.filter Node.isNamed) ∧ (c.isNamed = true → c.start = c.stop) := by
  rw [List.filter_cons] at h
  split at h
  · next hnamed =>
    obtain ⟨hlo, hle, hrest⟩ := h
    have hhi := hrest.le
    have hempty : c.start = c.stop := by
      refine Classical.byContradiction fun hne => ?_
      simp only [isPassedOver, hnamed, Bool.not_true, Bool.false_or, Bool.or_eq_true, beq_iff_eq,
        decide_eq_true_eq] at hp
      omega
    exact ⟨hrest.from_le (by omega), fun _ => hempty⟩
  · next hnamed => exact ⟨h, fun hn => absurd hn hnamed⟩

theorem Node.token_reread {c : Node} (h0 : 0 ≤ c.start) (hle : c.start ≤ c.stop) (hcomment : c.kind ≠ .comment)
    (hown : c.isEnclosure = false → SameOutside a b c.start c.stop []) :
    (c.token a).Alike ((c.token a).reread b) := by
  refine ⟨rfl, fun hstring htree => ?_⟩
  have hplain : c.isEnclosure = false := by
    unfold token tokenKind at hstring htree
    unfold isEnclosure isTree
    cases hk : c.kind <;> simp_all
  exact ((hown hplain).slice_eq h0 hle).symm

/-- The tokens are the same but for the texts of strings and trees. -/
theorem Node.forestAmong_reread {children : List Node} (h0 : 0 ≤ lo) (h1 : hi ≤ a.length)
    (hordered : InOrder lo hi (children.filter Node.isNamed)) (h : SameOutside a b lo hi children) :
    (forestAmong b hi lo children).map Part.token =
        ((forestAmong a hi lo children).map Part.token).map (Token.reread b) ∧
      ∀ t ∈ (forestAmong a hi lo children).map Part.token, t.Alike (t.reread b) := by
  induction children generalizing lo with
  | nil =>
    rw [forestAmong, forestAmong, map_token_leaf, map_token_leaf]
    exact gapTokens_reread h h0 hordered h1
  | cons c rest ih =>
    cases hp : c.isPassedOver lo hi with
    | true =>
      obtain ⟨hrest, hempty⟩ := hordered.of_passed hp
      rw [forestAmong_of_passed hp, forestAmong_of_passed hp]
      exact ih h0 hrest (h.tail fun henclosure => hempty (isNamed_of_isEnclosure henclosure))
    | false =>
      obtain ⟨hnamed, hne, hcur, hstop⟩ := isPassedOver_eq_false_iff.mp hp
      rw [List.filter_cons, if_pos hnamed] at hordered
      obtain ⟨_, hle, hrest⟩ := hordered
      obtain ⟨hgap, hown, hmore⟩ := h.around hcur hle hrest
      obtain ⟨hgapTokens, hgapAlike⟩ := gapTokens_reread hgap h0 hcur (by omega)
      obtain ⟨hmoreTokens, hmoreAlike⟩ := ih (by omega) hrest hmore
      rw [forestAmong_of_kept hp, forestAmong_of_kept hp]
      simp only [List.map_append, map_token_leaf, map_token_ownParts, hgapTokens, hmoreTokens]
      refine ⟨by split <;> rfl, fun t ht => ?_⟩
      rcases List.mem_append.mp ht with ht | ht
      · exact hgapAlike t ht
      rcases List.mem_append.mp ht with ht | ht
      · split at ht
        · cases ht
        · next hcomment =>
          obtain rfl := List.mem_singleton.mp ht
          exact token_reread (by omega) hle hcomment hown
      · exact hmoreAlike t ht

theorem Node.ArgumentTree.reread {n : Node} (h : n.ArgumentTree a)
    (hsame : SameOutside a b 0 (max a.length b.length) n.children) : n.ArgumentTree b := by
  have h0 := h.nonneg
  have hroom := h.bracketed.room
  have h1 := h.bracketed.within h0
  -- no named child reaches a bracket
  have hbracket {p : Int} (hp : p = n.start ∨ p = n.stop - 1) : b.slice p (p + 1) = a.slice p (p + 1) := by
    have hpart : SameOutside a b p (p + 1) [] := by
      refine hsame.part (by omega) (by omega) fun c hc henclosure => .inr ?_
      have := h.ordered.mem (List.mem_filter.mpr ⟨hc, isNamed_of_isEnclosure henclosure⟩)
      omega
    exact (hpart.slice_eq (by omega) (by omega)).symm
  have hcloser := hbracket (.inr rfl)
  rw [Int.sub_add_cancel] at hcloser
  refine ⟨h.kind, h0, ⟨hroom, ?_, ?_⟩, h.ordered⟩
  · rw [hbracket (.inl rfl)]
    exact h.bracketed.opener
  · rw [hcloser]
    exact h.bracketed.closer

/-! ## The outline of tokens that are read again -/

variable {f : Token → Token} {ts : List Token} {s : Segment}

theorem Segment.range_mapTokens (hstart : ∀ t, (f t).start = t.start) (hstop : ∀ t, (f t).stop = t.stop)
    (s : Segment) : (s.mapTokens f).range = s.range := by
  unfold Segment.range Segment.mapTokens
  rw [List.head?_map, List.getLast?_map]
  cases s.tokens.head? with
  | none => rfl
  | some first =>
    cases s.tokens.getLast? with
    | none => rfl
    | some last => simp [hstart, hstop]

theorem Segment.ranges_mapTokens (hstart : ∀ t, (f t).start = t.start) (hstop : ∀ t, (f t).stop = t.stop)
    (h : ∀ t ∈ s.tokens, t.Alike (f t)) : (s.mapTokens f).ranges = s.ranges := by
  have hassignment : assignment (s.mapTokens f).tokens = assignment s.tokens := by
    have hnone : ∀ b ∈ (none : Option Token), b ∈ s.tokens := fun _ hb => nomatch hb
    refine assignmentFrom_map (fun t ht => funext (h t ht).isPunct) (fun t u _ _ => ?_) hnone fun t ht => ht
    rw [hstart, hstop]
  have hvalue : (s.mapTokens f).valueStart = s.valueStart := by
    unfold Segment.valueStart
    rw [hassignment]
    cases assignment s.tokens with
    | none => rfl
    | some i =>
      simp only [Option.bind_some, Segment.mapTokens, List.getElem?_map, Option.map_map]
      congr 1
      exact funext hstart
  rw [Segment.ranges, Segment.ranges, Segment.range_mapTokens hstart hstop, hvalue]

theorem targetRange_map (hstart : ∀ t, (f t).start = t.start) (hstop : ∀ t, (f t).stop = t.stop)
    (h : ∀ t ∈ ts, t.Alike (f t)) : targetRange (ts.map f) = targetRange ts := by
  unfold targetRange
  rw [segmentsOf_map fun t ht => (h t ht).separator?, List.head?_map]
  cases hs : (segmentsOf ts).head? with
  | none => rfl
  | some s =>
    have hmem : ∀ t ∈ s.tokens, t.Alike (f t) := fun t ht =>
      h t (mem_of_mem_segmentsOf (List.mem_of_mem_head? hs) ht)
    simp only [Option.map_some, Option.bind_some, Segment.isTarget_map hmem,
      Segment.range_mapTokens hstart hstop]

theorem insertionOffset_map (hstart : ∀ t, (f t).start = t.start) (hstop : ∀ t, (f t).stop = t.stop)
    (h : ∀ t ∈ ts, t.Alike (f t)) (start : Int) : insertionOffset start (ts.map f) = insertionOffset start ts := by
  unfold insertionOffset
  rw [targetRange_map hstart hstop h, argumentsOf_map h, List.head?_map]
  cases (argumentsOf ts).head? with
  | none => rfl
  | some s =>
    simp only [Option.map_some, Option.bind_some, Segment.mapTokens, List.head?_map]
    cases s.tokens.head? with
    | none => rfl
    | some t => simp only [Option.map_some, hstart]

/-- Tokens that are alike at the same places have the same outline. -/
theorem Invocation.call_outline_map (hstart : ∀ t, (f t).start = t.start) (hstop : ∀ t, (f t).stop = t.stop)
    {v w : Invocation} (h : ∀ t ∈ v.tokens, t.Alike (f t)) (htokens : w.tokens = v.tokens.map f)
    (hplace : w.start = v.start) (lines lines' : List Nat) :
    (w.call b lines').outline = (v.call a lines).outline := by
  have hvalues : (splitArguments (v.tokens.map f)).1.filterMap Segment.ranges =
      (splitArguments v.tokens).1.filterMap Segment.ranges := by
    rw [splitArguments_map h, List.filterMap_map]
    refine List.filterMap_congr fun s hs => ?_
    refine Segment.ranges_mapTokens hstart hstop fun t ht => h t (mem_of_mem_argumentsOf (s := s) ?_ ht)
    rw [← splitArguments_append]
    exact List.mem_append_left _ hs
  rw [Invocation.call_outline, Invocation.call_outline, htokens, hplace, targetRange_map hstart hstop h,
    insertionOffset_map hstart hstop h, hvalues]

/-- Two sources that differ only inside of the string literals, trees and comments of an argument tree have calls
with target, key-value arguments, values and place for a new argument at the same bytes. -/
theorem outline_ignores_enclosures (a b : Bytes) (tree : Node) (h : tree.ArgumentTree a)
    (hsame : ∀ k : Nat, a[k]? ≠ b[k]? → ∃ c ∈ tree.children, c.isEnclosure = true ∧ c.start ≤ k ∧ k < c.stop)
    (lines lines' : List Nat) (name name' : String) (nameStart nameStop nameStart' nameStop' : Int) :
    ∃ call call', callWith a lines name nameStart nameStop tree = .ok call ∧
      callWith b lines' name' nameStart' nameStop' tree = .ok call' ∧ call'.outline = call.outline := by
  have h0 := h.nonneg
  have hroom := h.bracketed.room
  have h1 := h.bracketed.within h0
  have h' : tree.ArgumentTree b := h.reread fun k _ _ => hsame k
  obtain ⟨htokens, halike⟩ : (tree.forest b).map Part.token =
        ((tree.forest a).map Part.token).map (Token.reread b) ∧
      ∀ t ∈ (tree.forest a).map Part.token, t.Alike (t.reread b) := by
    rw [Node.forest_eq, Node.forest_eq, h.bracketed.innerStart_eq h.kind, h.bracketed.innerStop_eq h.kind,
      h'.bracketed.innerStart_eq h.kind, h'.bracketed.innerStop_eq h.kind]
    exact Node.forestAmong_reread (by omega) (by omega) h.ordered fun k _ _ => hsame k
  refine ⟨_, _, callWith_eq h.tokens_eq name nameStart nameStop,
    callWith_eq h'.tokens_eq name' nameStart' nameStop', ?_⟩
  refine Invocation.call_outline_map (f := Token.reread b) (fun _ => rfl) (fun _ => rfl) ?_ ?_ ?_ lines lines'
  · exact halike
  · exact htokens
  · rfl

/-- The tree of `(k=[1],/*2*/"s";"m")`. -/
def enclosingTree : Node :=
  .mk .tokenTree 0 20 true false false
    [.mk .other 0 1 false false false [], .mk .identifier 1 2 true false false [],
      .mk .tokenTree 3 6 true false false [.mk .other 4 5 true false false []],
      .mk .comment 7 12 true false false [], .mk .stringLiteral 12 15 true false false [],
      .mk .stringLiteral 16 19 true false false [], .mk .other 19 20 false false false []]

theorem separators_enclosed_ignored :
    let a := Bytes.ofString "(k=[1],/*2*/\"s\";\"m\")"
    let b := Bytes.ofString "(k=(;),/*,*/\"=\";\";\")"
    enclosingTree.ArgumentTree a ∧ a ≠ b ∧
      ∃ call call', callWith a [0] "m" 0 0 enclosingTree = .ok call ∧
        callWith b [0] "m" 0 0 enclosingTree = .ok call' ∧ call'.outline = call.outline ∧
          call.outline = ⟨none, [((1, 6), some (3, 6)), ((12, 15), none)], 1⟩ := by
  intro a b
  have htree : enclosingTree.ArgumentTree a := by decide +kernel
  have hsame : ∀ k : Nat, a[k]? ≠ b[k]? →
      ∃ c ∈ enclosingTree.children, c.isEnclosure = true ∧ c.start ≤ k ∧ k < c.stop := by
    intro k hne
    have hall : ∀ k : Nat, k < 20 → a[k]? ≠ b[k]? →
        ∃ c ∈ enclosingTree.children, c.isEnclosure = true ∧ c.start ≤ k ∧ k < c.stop := by decide +kernel
    rcases Nat.lt_or_ge k 20 with hk | hk
    · exact hall k hk hne
    · refine absurd ?_ hne
      rw [List.getElem?_eq_none (show a.length ≤ k from hk), List.getElem?_eq_none (show b.length ≤ k from hk)]
  obtain ⟨call, call', hcall, hcall', houtline⟩ :=
    outline_ignores_enclosures a b enclosingTree htree hsame [0] [0] "m" "m" 0 0 0 0
  have hparts : (callWith a [0] "m" 0 0 enclosingTree).toOption.map Call.outline =
      some ⟨none, [((1, 6), some (3, 6)), ((12, 15), none)], 1⟩ := by
    decide +kernel
  rw [hcall] at hparts
  exact ⟨htree, by decide +kernel, call, call', hcall, hcall', houtline, Option.some.inj hparts⟩

end

end LogRef
