import LogRef.Proofs.Syntax.Growth

/-!
# The forest of a moved tree

The theorem is `forest_grown`: a tree that was moved along with the texts put into its source has the old
tokens, moved, and those of the new arguments. It goes piece by piece. A stretch in which texts are only
inside of tokens is read as before (`forestAmong_grown`); where a tree has a new argument, its tokens are cut
before and behind it.
-/
namespace LogRef

namespace Node

section

variable {e : Edits} {source : Bytes} {c c' n n' : Node}

/-- A tree holds the texts put in between its ends. -/
def HostedIn (e : Edits) (source : Bytes) (n : Node) : Prop :=
  ∀ p : Nat, e.text p ≠ [] → n.start < p → p < n.stop →
    (Part.tree (n.token source) (n.kind = .tokenTree) n.hasError (n.forest source)).Hosts e p

/-- The tokens inside of a tree of the edited source. -/
def grownForest (e : Edits) (source : Bytes) (n : Node) : List Part :=
  withArgument ((n.forest source).map Part.token)
    (e.argument (n.kind = .tokenTree) n.start ((n.forest source).map Part.token))
    (allGrown e (e.apply source) (n.forest source))

section Kept

/-! The texts in a stretch whose first node `c` is kept: none is before the node or at one of its ends. -/

variable {rest : List Node} {cursor stop : Int}
  (hhost : HostedAmong e cursor stop (forestAmong source stop cursor (c :: rest))) (hc : c.Fits source)
  (hrest : ∀ d ∈ rest, d.Fits source) (hp : c.isPassedOver cursor stop = false) (h1 : stop ≤ source.length)

include hhost hc hrest hp h1

theorem quiet_before : e.Quiet cursor c.start := by
  obtain ⟨_, _, _, hend⟩ := isPassedOver_eq_false_iff.mp hp
  have hle := hc.le
  intro p htext hgt
  refine Int.not_lt.mp fun hlt => ?_
  have := hosts_kept_cases hc hrest hp h1 (hhost p htext hgt (by omega))
  omega

theorem text_start_eq_nil (hlt : cursor < c.start) : e.text c.start.toNat = [] := by
  obtain ⟨_, hne, _, hend⟩ := isPassedOver_eq_false_iff.mp hp
  have hle := hc.le
  have h0 := hc.nonneg
  refine hhost.text_eq_nil h0 hlt (by omega) fun h => ?_
  have := hosts_kept_cases hc hrest hp h1 h
  omega

theorem text_stop_eq_nil (hlt : c.stop < stop) : e.text c.stop.toNat = [] := by
  obtain ⟨_, hne, hge, _⟩ := isPassedOver_eq_false_iff.mp hp
  have hle := hc.le
  have h0 := hc.nonneg
  refine hhost.text_eq_nil (by omega) (by omega) hlt fun h => ?_
  have := hosts_kept_cases hc hrest hp h1 h
  omega

theorem hosted_inside : HostedAmong e c.start c.stop (c.ownParts source) := by
  obtain ⟨_, _, _, hend⟩ := isPassedOver_eq_false_iff.mp hp
  intro p htext hgt hlt
  rcases hosts_kept_cases hc hrest hp h1 (hhost p htext (by omega) (by omega)) with h | h
  · exact h.2.2
  · omega

theorem hosted_behind : HostedAmong e c.stop stop (forestAmong source stop c.stop rest) := by
  obtain ⟨_, _, hge, _⟩ := isPassedOver_eq_false_iff.mp hp
  have hle := hc.le
  intro p htext hgt hlt
  rcases hosts_kept_cases hc hrest hp h1 (hhost p htext (by omega) hlt) with h | h
  · omega
  · exact h.2.2

/-- The bare bytes before the node are read as before. -/
theorem gapTokens_before (h0 : 0 ≤ cursor) : gapTokens (e.apply source) (e.right cursor) (e.right c.start) =
    (gapTokens source cursor c.start).map (Token.moved e (e.apply source)) := by
  obtain ⟨_, _, hge, hend⟩ := isPassedOver_eq_false_iff.mp hp
  have hle := hc.le
  rcases Int.lt_or_eq_of_le hge with hlt | heq
  · rw [Edits.right_eq_left (text_start_eq_nil hhost hc hrest hp h1 hlt),
      gapTokens_apply h0 hlt (by omega) (quiet_before hhost hc hrest hp h1)]
  · rw [heq, gapTokens_eq_nil hc.nonneg (Int.le_refl _), gapTokens_eq_nil Edits.right_nonneg (Int.le_refl _),
      List.map_nil]

end Kept

/-- What a node is in the edited source, given what becomes of it as a tree. -/
theorem Moves.ownParts_grown (h : c.Moves e true c') (hne : c.start ≠ c.stop)
    (htree : c.isTree = true → c.HostedIn e source → c'.forest (e.apply source) = c.grownForest e source)
    (hinside : HostedAmong e c.start c.stop (c.ownParts source)) :
    c'.ownParts (e.apply source) = allGrown e (e.apply source) (c.ownParts source) := by
  unfold ownParts at hinside ⊢
  rw [h.kind, h.isTree, h.hasError, h.token hne source]
  split
  · rfl
  · next hcomment =>
    rw [if_neg hcomment] at hinside
    split
    · next hc =>
      rw [if_pos hc] at hinside
      rw [htree hc fun p htext hgt hlt => ?_]
      · rfl
      · have hhosts := hinside p htext hgt hlt
        rw [HostsAmong, HostsAmong, or_false] at hhosts
        exact hhosts.2.2
    · rfl

/-- A stretch in which texts are only inside of tokens, given what becomes of the trees in it. -/
theorem forestAmong_grown {cs cs' : List Node} (hm : MovesAll e true cs cs')
    (hf : ∀ c ∈ cs, c.Fits source)
    (htrees : ∀ c ∈ cs, ∀ c' ∈ cs', c.Moves e true c' → c.isTree = true → c.start ≠ c.stop →
      c.HostedIn e source → c'.forest (e.apply source) = c.grownForest e source)
    {stop cursor cursor' : Int} (h0 : 0 ≤ cursor) (hle : cursor ≤ stop) (h1 : stop ≤ source.length)
    (hlo : e.left cursor ≤ cursor') (hhi : cursor' ≤ e.right cursor)
    (hcur : cursor < stop → cursor' = e.right cursor)
    (hhost : HostedAmong e cursor stop (forestAmong source stop cursor cs)) :
    forestAmong (e.apply source) (e.left stop) cursor' cs' =
      allGrown e (e.apply source) (forestAmong source stop cursor cs) := by
  have hnonneg : 0 ≤ cursor' := Int.le_trans Edits.left_nonneg hlo
  induction cs generalizing cs' cursor cursor' with
  | nil =>
    rw [MovesAll] at hm
    subst hm
    rw [forestAmong] at hhost ⊢
    rw [forestAmong, allGrown_leaves]
    rcases Int.lt_or_eq_of_le hle with hlt | rfl
    · have hq : e.Quiet cursor stop := fun p hp hgt =>
        Int.not_lt.mp fun hlt => not_hostsAmong_gap (hhost p hp hgt hlt)
      rw [hcur hlt, gapTokens_apply h0 hlt h1 hq]
    · rw [gapTokens_eq_nil h0 (Int.le_refl _), gapTokens_eq_nil hnonneg hlo]
      rfl
  | cons c rest ih =>
    rw [MovesAll] at hm
    obtain ⟨c', rest', rfl, hc', hrest'⟩ := hm
    have hc := hf c List.mem_cons_self
    have hrest : ∀ d ∈ rest, d.Fits source := fun d hd => hf d (List.mem_cons_of_mem c hd)
    have htrees' : ∀ d ∈ rest, ∀ d' ∈ rest', d.Moves e true d' → d.isTree = true →
        d.start ≠ d.stop → d.HostedIn e source →
          d'.forest (e.apply source) = d.grownForest e source := fun d hd d' hd' =>
      htrees d (List.mem_cons_of_mem c hd) d' (List.mem_cons_of_mem c' hd')
    have hpass := hc'.isPassedOver hc h0 (Int.le_trans h0 hle) hlo hhi
    cases hp : c.isPassedOver cursor stop with
    | true =>
      rw [hp] at hpass
      rw [forestAmong_of_passed hp] at hhost ⊢
      rw [forestAmong_of_passed hpass]
      exact ih hrest' hrest htrees' h0 hle hlo hhi hcur hhost hnonneg
    | false =>
      rw [hp] at hpass
      obtain ⟨_, hne, hge, hend⟩ := isPassedOver_eq_false_iff.mp hp
      have hforward := hc.le
      obtain ⟨hstart', hstop'⟩ := hc'.bounds hne
      have hown := hc'.ownParts_grown hne
        (fun htree hin => htrees c List.mem_cons_self c' List.mem_cons_self hc' htree hne hin)
        (hosted_inside hhost hc hrest hp h1)
      have hmore := hosted_behind hhost hc hrest hp h1
      have hbehind : c.stop < stop → c'.stop = e.right c.stop := fun hlt => by
        rw [hstop', Edits.right_eq_left (text_stop_eq_nil hhost hc hrest hp h1 hlt)]
      rw [forestAmong_of_kept hp, forestAmong_of_kept hpass, hcur (by omega), hstart',
        gapTokens_before hhost hc hrest hp h1 h0, hown, allGrown_append, allGrown_append, allGrown_leaves]
      congr 2
      exact ih hrest' hrest htrees' (by omega) hend (Int.le_of_eq hstop'.symm)
        (hstop' ▸ Edits.left_le_right) hbehind hmore (hstop' ▸ Edits.left_nonneg)

theorem InOrder.pairwise {lo hi : Int} {cs : List Node} (h : InOrder lo hi cs) :
    cs.Pairwise fun c d => c.start ≤ c.stop ∧ c.stop ≤ d.start := by
  induction cs generalizing lo with
  | nil => exact List.Pairwise.nil
  | cons c cs ih =>
    obtain ⟨_, hle, hrest⟩ := h
    exact List.pairwise_cons.mpr ⟨fun d hd => ⟨hle, (hrest.mem hd).1⟩, ih hrest⟩

theorem MovesAll.mem {inTree : Bool} {cs cs' : List Node} (h : MovesAll e inTree cs cs')
    (hc : c' ∈ cs') : ∃ c ∈ cs, c.Moves e inTree c' := by
  induction cs generalizing cs' with
  | nil =>
    rw [MovesAll] at h
    subst h
    cases hc
  | cons d cs ih =>
    rw [MovesAll] at h
    obtain ⟨d', rest', rfl, hd', hrest'⟩ := h
    rcases List.mem_cons.mp hc with rfl | hc
    · exact ⟨d, List.mem_cons_self, hd'⟩
    · obtain ⟨b, hb, hm⟩ := ih hrest' hc
      exact ⟨b, List.mem_cons_of_mem d hb, hm⟩

theorem MovesAll.mem_left {inTree : Bool} {cs cs' : List Node} (h : MovesAll e inTree cs cs')
    (hc : c ∈ cs) : ∃ c' ∈ cs', c.Moves e inTree c' := by
  induction cs generalizing cs' with
  | nil => cases hc
  | cons d cs ih =>
    rw [MovesAll] at h
    obtain ⟨d', rest', rfl, hd', hrest'⟩ := h
    rcases List.mem_cons.mp hc with rfl | hc
    · exact ⟨d', List.mem_cons_self, hd'⟩
    · obtain ⟨b, hb, hm⟩ := ih hrest' hc
      exact ⟨b, List.mem_cons_of_mem d' hb, hm⟩

theorem start_ne_stop_of_counts (h : c.counts = true) : c.start ≠ c.stop := by
  simp only [counts, Bool.and_eq_true, bne_iff_ne, ne_eq] at h
  exact h.2

/-- A node that counts in the edited source has bytes in the old one. -/
theorem Moves.start_ne_stop {inTree : Bool} (h : c.Moves e inTree c') (hc : c'.counts = true) :
    c.start ≠ c.stop := fun heq => start_ne_stop_of_counts hc (h.empty heq)

/-- Moved nodes come in order. -/
theorem MovesAll.sorted {inTree : Bool} {lo hi : Int} {cs cs' : List Node}
    (h : MovesAll e inTree cs cs') (hf : ∀ c ∈ cs, c.Fits source) (ho : InOrder lo hi cs) :
    cs'.Pairwise fun c d => c.counts = true → d.counts = true → c.start ≤ d.start := by
  induction cs generalizing cs' lo with
  | nil =>
    rw [MovesAll] at h
    subst h
    exact List.Pairwise.nil
  | cons c cs ih =>
    rw [MovesAll] at h
    obtain ⟨c', rest', rfl, hc', hrest'⟩ := h
    obtain ⟨_, hle, hrest⟩ := ho
    refine List.pairwise_cons.mpr ⟨fun d' hd' hcc hdc => ?_,
      ih hrest' (fun d hd => hf d (List.mem_cons_of_mem c hd)) hrest⟩
    obtain ⟨d, hd, hdm⟩ := hrest'.mem hd'
    have hcd := (hrest.mem hd).1
    have hc0 := (hf c List.mem_cons_self).nonneg
    rw [(hc'.bounds (hc'.start_ne_stop hcc)).1, (hdm.bounds (hdm.start_ne_stop hdc)).1]
    exact (Edits.right_le_right_iff hc0 (by omega)).mpr (by omega)

/-- A text inside of the tokens of a tree is inside of one of its children. -/
theorem exists_child_of_hostsAmong {cs : List Node} (hf : ∀ c ∈ cs, c.Fits source) {p : Nat}
    {cursor stop : Int} (h1 : stop ≤ source.length)
    (h : HostsAmong e p (forestAmong source stop cursor cs)) :
    ∃ c ∈ cs, c.start < p ∧ p < c.stop := by
  induction cs generalizing cursor with
  | nil =>
    rw [forestAmong] at h
    exact absurd h not_hostsAmong_gap
  | cons c cs ih =>
    have hrest : ∀ d ∈ cs, d.Fits source := fun d hd => hf d (List.mem_cons_of_mem c hd)
    have hbehind {x : Int} (h : HostsAmong e p (forestAmong source stop x cs)) :
        ∃ d ∈ c :: cs, d.start < p ∧ p < d.stop := by
      obtain ⟨d, hd, hb⟩ := ih hrest h
      exact ⟨d, List.mem_cons_of_mem c hd, hb⟩
    cases hp : c.isPassedOver cursor stop with
    | true =>
      rw [forestAmong_of_passed hp] at h
      exact hbehind h
    | false =>
      rcases hosts_kept_cases (hf c List.mem_cons_self) hrest hp h1 h with h | h
      · exact ⟨c, List.mem_cons_self, h.1, h.2.1⟩
      · exact hbehind h.2.2

theorem Moves.treeChildren {inTree : Bool} (h : n.Moves e inTree n') (htree : n.isTree = true)
    (hin : inTree = true ∨ n.kind = .tokenTree) : MovesAll e true n.children (n'.oldChildren e) := by
  have hc := h.children (isOpened_of_isTree htree)
  rcases hin with rfl | hk
  · rwa [Bool.true_or] at hc
  · rwa [hk, decide_eq_true rfl, Bool.or_true] at hc

theorem mem_oldChildren (hk : n.kind = .tokenTree) :
    c ∈ n.oldChildren e ↔ c ∈ n.children ∧ e.isNew c = false := by
  rw [oldChildren, if_pos hk, List.mem_filter, Bool.not_eq_true']

/-- A new node of a bracketed tree is inside of a new argument that no other node reaches around. -/
theorem exists_of_isNew {inTree : Bool} (hm : n.Moves e inTree n') (hk : n.kind = .tokenTree)
    (hf : n.Fits source) (hne : n.start ≠ n.stop) (hc : c' ∈ n'.children)
    (hnew : e.isNew c' = true) :
    ∃ p : Nat, e.tokens p ≠ [] ∧ e.text p ≠ [] ∧ e.left p ≤ c'.start ∧ c'.stop ≤ e.right p ∧
      n.start < p ∧ p < n.stop ∧ ¬ HostsAmong e p (n.forest source) := by
  obtain ⟨_, hlt, p, htokens, hlo, hhi⟩ := Edits.isNew_iff.mp hnew
  have hk' : n'.kind = .tokenTree := hm.kind.trans hk
  have hordered : InOrder n'.start n'.stop n'.children := by
    rcases hm.ordered with h | h
    · rw [← h, mem_oldChildren hk', hnew] at hc
      exact absurd hc.2 (by decide)
    · exact h
  have hwithin := hordered.mem hc
  have hbounds := hm.bounds hne
  have h0 := hf.nonneg
  have htext : e.text p ≠ [] := fun hnil => by
    have := Edits.right_eq_left (e := e) (p := p) (by rwa [Int.toNat_natCast])
    omega
  have hstart : n.start < p := by
    refine Int.not_le.mp fun h => ?_
    have := (Edits.right_le_right_iff (e := e) (Int.natCast_nonneg p) h0).mpr h
    omega
  have hstop : (p : Int) < n.stop := by
    refine Int.not_le.mp fun h => ?_
    have := Edits.left_mono (e := e) h
    omega
  refine ⟨p, htokens, htext, hlo, hhi, hstart, hstop, fun hhosts => ?_⟩
  -- a child around the text would be found again, around the new node
  rw [forest_eq] at hhosts
  have hinner := innerStop_cases source n.kind n.start n.stop
  have hwidth := hf.within
  obtain ⟨d, hd, hdlo, hdhi⟩ := exists_child_of_hostsAmong (fun c hc => hf.child hc) (by omega) hhosts
  obtain ⟨d', hd', hdm⟩ := (hm.treeChildren (isTree_of_tokenTree hk) (Or.inr hk)).mem_left hd
  have hdb := hdm.bounds (by omega)
  have hd0 := (hf.child hd).nonneg
  have hright := Edits.right_lt_left (e := e) hd0 hdlo
  have hleft := Edits.right_lt_left (e := e) (Int.natCast_nonneg p) hdhi
  rw [mem_oldChildren hk'] at hd'
  rcases hordered.apart hc hd'.1 with rfl | hapart
  · rw [hnew] at hd'
    exact absurd hd'.2 (by decide)
  · omega

/-- A tree without a new argument of its own. -/
theorem forest_grown_plain {inTree : Bool} (hm : n.Moves e inTree n')
    (hin : inTree = true ∨ n.kind = .tokenTree) (hf : n.Fits source) (htree : n.isTree = true)
    (hne : n.start ≠ n.stop) (hold : n'.oldChildren e = n'.children)
    (htrees : ∀ c ∈ n.children, ∀ c' ∈ n'.oldChildren e, c.Moves e true c' → c.isTree = true →
      c.start ≠ c.stop → c.HostedIn e source → c'.forest (e.apply source) = c.grownForest e source)
    (hhost : HostedAmong e n.start n.stop (n.forest source)) :
    n'.forest (e.apply source) = allGrown e (e.apply source) (n.forest source) := by
  have h0 := hf.nonneg
  have h1 := hf.within
  have hinner := hf.inner_le
  have hplaced := (forest_placed n hf).1
  have hleft : innerStop (e.apply source) n'.kind n'.start n'.stop =
      e.left (innerStop source n.kind n.start n.stop) := by
    rw [hm.innerStop_eq hf hne, hf.innerStop_eq]
    by_cases hk : n.kind = .tokenTree
    · have hroom := (hf.wellFormed.bracketed hk).room
      rw [if_pos hk] at hplaced ⊢
      have hnil : e.text (n.stop - 1).toNat = [] :=
        hhost.text_eq_nil (by omega) (by omega) (by omega) fun h => by
          have := h.within hplaced
          omega
      rw [← Edits.right_eq_left hnil, ← Int.sub_add_cancel n.stop 1, Edits.left_succ (by omega),
        Int.add_sub_cancel, Int.add_sub_cancel]
    · rw [if_neg hk, Int.sub_zero, Int.sub_zero]
  have hright : innerStart (e.apply source) n'.kind n'.start =
      e.right (innerStart source n.kind n.start) := by
    rw [hm.innerStart_eq hf hne, hf.innerStart_eq]
    by_cases hk : n.kind = .tokenTree
    · have hroom := (hf.wellFormed.bracketed hk).room
      rw [if_pos hk] at hplaced ⊢
      have hnil : e.text (n.start + 1).toNat = [] :=
        hhost.text_eq_nil (by omega) (by omega) (by omega) fun h => by
          have := h.within hplaced
          omega
      rw [Edits.right_eq_left hnil, Edits.left_succ h0]
    · rw [if_neg hk, Int.add_zero, Int.add_zero]
  have hs := innerStart_cases source n.kind n.start
  have he := innerStop_cases source n.kind n.start n.stop
  have hchildren := hm.treeChildren htree hin
  rw [forest_eq] at hhost
  rw [forest_eq _ n', forest_eq _ n, hleft, hright, ← hold]
  exact forestAmong_grown hchildren (fun c hc => hf.child hc) htrees (by omega) hinner (by omega)
    Edits.left_le_right (Int.le_refl _) (fun _ => rfl)
    fun p hp hlo hhi => hhost p hp (by omega) (by omega)

/-- A token of a tree and a node that is kept: the token is the node, or they are apart. -/
theorem apart_of_kept {cs : List Node} (hf : ∀ c ∈ cs, c.Fits source) {cursor stop lo hi : Int}
    (ho : InOrder lo hi cs) (h0 : 0 ≤ cursor) (hle : cursor ≤ stop) (h1 : stop ≤ source.length)
    (hc : c ∈ cs) (hp : c.isPassedOver cursor stop = false) {x : Part}
    (hx : x ∈ forestAmong source stop cursor cs) :
    x.token = c.token source ∨ x.token.stop ≤ c.start ∨ c.stop ≤ x.token.start := by
  induction cs generalizing cursor lo with
  | nil => cases hc
  | cons d cs ih =>
    have hrest : ∀ d ∈ cs, d.Fits source := fun b hb => hf b (List.mem_cons_of_mem d hb)
    obtain ⟨_, _, ho'⟩ := ho
    obtain ⟨_, hcne, hcge, hcend⟩ := isPassedOver_eq_false_iff.mp hp
    cases hd : d.isPassedOver cursor stop with
    | true =>
      rw [forestAmong_of_passed hd] at hx
      rcases List.mem_cons.mp hc with rfl | hc
      · rw [hp] at hd
        cases hd
      · exact ih hrest ho' h0 hle hc hp hx
    | false =>
      obtain ⟨_, hdne, hdge, hdend⟩ := isPassedOver_eq_false_iff.mp hd
      have hfd := hf d List.mem_cons_self
      have hdle := hfd.le
      have hd0 := hfd.nonneg
      have hgap : TokensInOrder cursor d.start (gapTokens source cursor d.start) :=
        gapTokens_inOrder h0 hdge (by omega)
      have hmore := (forestAmong_placed cs hrest (show 0 ≤ d.stop by omega) hdend h1).1
      rw [forestAmong_of_kept hd, List.mem_append, List.mem_append] at hx
      -- the bytes before the node, the node itself, or what is behind it
      rcases hx with hx | hx | hx
      · obtain ⟨t, ht, rfl⟩ := List.mem_map.mp hx
        have hb := hgap.mem ht
        rcases List.mem_cons.mp hc with rfl | hc
        · exact Or.inr (Or.inl hb.2.2)
        · have := (ho'.mem hc).1
          exact Or.inr (Or.inl (by simp only [Part.token]; omega))
      · rcases List.mem_cons.mp hc with rfl | hc
        · unfold ownParts at hx
          split at hx
          · cases hx
          · split at hx <;> (rw [List.mem_singleton] at hx; subst hx; exact Or.inl rfl)
        · have hb := (ownParts_inOrder hfd hdne).mem (List.mem_map_of_mem hx)
          have := (ho'.mem hc).1
          exact Or.inr (Or.inl (by omega))
      · rcases List.mem_cons.mp hc with rfl | hc
        · exact Or.inr (Or.inr (hmore.mem (List.mem_map_of_mem hx)).1)
        · have := (ho'.mem hc).1
          exact ih hrest ho' (by omega) hdend hc (kept_of_counts (counts_of_kept hp) this hcend) hx

end

end Node

/-- Where a new argument goes, among tokens in order: behind those counted by its index, before the rest. -/
theorem argumentPlace_spec {start hi p : Int} {ts : List Token} (h : TokensInOrder (start + 1) hi ts)
    (hp : argumentPlace start ts = some p) :
    start < p ∧ p < hi ∧ argumentIndex ts < ts.length ∧
      (∀ t ∈ ts.take (argumentIndex ts), t.stop ≤ p) ∧ (∀ t ∈ ts.drop (argumentIndex ts), p ≤ t.start) ∧
      (p = start + 1 ∨ ∃ t ∈ ts, p = t.start) := by
  obtain ⟨t, ht, rfl⟩ := Option.map_eq_some_iff.mp hp
  obtain ⟨hk, hget⟩ := List.getElem?_eq_some_iff.mp ht
  have hmem : t ∈ ts := hget ▸ List.getElem_mem hk
  have hb := h.mem hmem
  have hdrop : ts.drop (argumentIndex ts) = t :: ts.drop (argumentIndex ts + 1) := by
    rw [List.drop_eq_getElem_cons hk, hget]
  have hsplit : TokensInOrder (start + 1) hi
      (ts.take (argumentIndex ts) ++ t :: ts.drop (argumentIndex ts + 1)) := by
    rwa [← hdrop, List.take_append_drop]
  obtain ⟨hbefore, hbehind⟩ := hsplit.of_append_cons
  rw [hdrop]
  by_cases hzero : argumentIndex ts = 0
  · rw [if_pos hzero]
    refine ⟨by omega, by omega, hk, fun u hu => ?_, fun u hu => ?_, Or.inl rfl⟩
    · rw [hzero] at hu
      cases hu
    · have := (hbehind.mem hu).1
      omega
  · rw [if_neg hzero]
    exact ⟨by omega, by omega, hk, fun u hu => (hbefore.mem hu).2.2, fun u hu => (hbehind.mem hu).1,
      Or.inr ⟨t, hmem, rfl⟩⟩

/-- A cut at a position takes off as many parts as stand before it. -/
theorem length_of_cut {a b : List Part} {lo p hi : Int} {k : Nat}
    (ha : TokensInOrder lo p (a.map Part.token)) (hb : TokensInOrder p hi (b.map Part.token))
    (hk : k ≤ (a ++ b).length) (hbefore : ∀ t ∈ ((a ++ b).map Part.token).take k, t.stop ≤ p)
    (hbehind : ∀ t ∈ ((a ++ b).map Part.token).drop k, p ≤ t.start) : a.length = k := by
  rw [List.map_append] at hbefore hbehind
  refine Nat.le_antisymm (Nat.not_lt.mp fun hlt => ?_) (Nat.not_lt.mp fun hlt => ?_)
  · -- a part of the first list would stand behind the cut
    rw [List.drop_append_of_le_length (by rw [List.length_map]; omega)] at hbehind
    have hk' : k < (a.map Part.token).length := by rw [List.length_map]; omega
    rw [List.drop_eq_getElem_cons hk'] at hbehind
    have h := hbehind _ (List.mem_append_left _ List.mem_cons_self)
    have := ha.mem (List.getElem_mem hk')
    omega
  · -- a part of the second list would stand before it
    obtain ⟨x, b, rfl⟩ : ∃ x b', b = x :: b' := by
      cases b with
      | nil => simp at hk; omega
      | cons x b => exact ⟨x, b, rfl⟩
    have hmem : x.token ∈ ((a.map Part.token) ++ ((x :: b).map Part.token)).take k := by
      rw [List.take_append, List.length_map]
      have hpos : k - a.length ≠ 0 := by omega
      obtain ⟨m, hm⟩ := Nat.exists_eq_succ_of_ne_zero hpos
      rw [hm, List.map_cons, List.take_succ_cons]
      exact List.mem_append_right _ List.mem_cons_self
    have h := hbefore _ hmem
    have := hb.mem (List.mem_map_of_mem (List.mem_cons_self (a := x)))
    omega

namespace Node

section

variable {e : Edits} {source : Bytes} {c c' n n' : Node}

theorem isBreak_left {p : Int} (h : IsBreak source p) (hp : p ≤ source.length) :
    IsBreak (e.apply source) (e.left p) := by
  intro b hb
  rw [Edits.left, Int.toNat_natCast, Edits.apply, take_weave _ (by omega), getLast?_weave] at hb
  exact h b hb

/-- The nodes of a moved tree do not go backwards. -/
theorem Moves.children_le {inTree : Bool} (hm : n.Moves e inTree n') (hk : n.kind = .tokenTree)
    (hf : n.Fits source) (hc : c' ∈ n'.children) : c'.start ≤ c'.stop := by
  have hk' : n'.kind = .tokenTree := hm.kind.trans hk
  cases hnew : e.isNew c' with
  | true => exact Int.le_of_lt (Edits.isNew_iff.mp hnew).2.1
  | false =>
    obtain ⟨c, hcm, hcmoves⟩ := (hm.treeChildren (isTree_of_tokenTree hk) (Or.inr hk)).mem
      ((mem_oldChildren hk').mpr ⟨hc, hnew⟩)
    by_cases hne : c.start = c.stop
    · exact Int.le_of_eq (hcmoves.empty hne)
    · have hfc := hf.child hcm
      have hle := hfc.le
      have := Edits.right_lt_left (e := e) hfc.nonneg (Int.lt_iff_le_and_ne.mpr ⟨hle, hne⟩)
      have := hcmoves.bounds hne
      omega

/-- The nodes of a moved tree come in order, as far as they count. -/
theorem Moves.children_sorted {inTree : Bool} (hm : n.Moves e inTree n') (hk : n.kind = .tokenTree)
    (hf : n.Fits source) :
    n'.children.Pairwise fun c d => c.counts = true → d.counts = true → c.start ≤ d.start := by
  rcases hm.ordered with hold | hordered
  · rw [← hold]
    exact (hm.treeChildren (isTree_of_tokenTree hk) (Or.inr hk)).sorted
      (fun c hc => hf.child hc) hf.wellFormed.ordered
  · exact hordered.pairwise.imp fun h _ _ => Int.le_trans h.1 h.2

/-- A kept node is on one side of the place of a new argument. -/
theorem argument_side (hf : n.Fits source) (hk : n.kind = .tokenTree) {p : Int}
    (hp : argumentPlace n.start ((n.forest source).map Part.token) = some p) (hc : c ∈ n.children)
    (hpass : c.isPassedOver (n.start + 1) (n.stop - 1) = false) : c.stop ≤ p ∨ p ≤ c.start := by
  have h0 := hf.nonneg
  have h1 := hf.within
  have horder := (forest_placed n hf).1
  rw [if_pos hk] at horder
  obtain ⟨_, _, _, _, _, rfl | ⟨t, ht, rfl⟩⟩ := argumentPlace_spec horder hp
  · exact Or.inr (isPassedOver_eq_false_iff.mp hpass).2.2.1
  · obtain ⟨x, hx, rfl⟩ := List.mem_map.mp ht
    have hb := horder.mem ht
    rw [forest_eq, hf.innerStart_eq, hf.innerStop_eq, if_pos hk] at hx
    rcases apart_of_kept (fun c hc => hf.child hc) hf.wellFormed.ordered (by omega) (by omega)
      (by omega) hc hpass hx with h | h | h
    · exact Or.inr (Int.le_of_eq (congrArg Token.start h))
    · exact Or.inr (by omega)
    · exact Or.inl h

/-- The tokens of a bracketed tree, cut where a new argument goes. -/
theorem forest_cut (hf : n.Fits source) (hk : n.kind = .tokenTree) {p : Int}
    (hp : argumentPlace n.start ((n.forest source).map Part.token) = some p)
    (hbreak : IsBreak source p) :
    n.forest source = forestAmong source p (n.start + 1) n.children ++
        forestAmong source (n.stop - 1) p n.children ∧
      (forestAmong source p (n.start + 1) n.children).length =
        argumentIndex ((n.forest source).map Part.token) := by
  have h0 := hf.nonneg
  have h1 := hf.within
  have hfc : ∀ c ∈ n.children, c.Fits source := fun c hc => hf.child hc
  have horder := (forest_placed n hf).1
  rw [if_pos hk] at horder
  obtain ⟨hlo, hhi, hlength, hbefore, hbehind, _⟩ := argumentPlace_spec horder hp
  have hcut : n.forest source = forestAmong source p (n.start + 1) n.children ++
      forestAmong source (n.stop - 1) p n.children := by
    rw [forest_eq, hf.innerStart_eq, hf.innerStop_eq, if_pos hk]
    exact forestAmong_cut (by omega) (by omega) (by omega) (by omega) hbreak
      (fun c hc => (hfc c hc).le) (fun c hc hpass => argument_side hf hk hp hc hpass)
      (hf.wellFormed.ordered.pairwise.imp fun h _ _ hq => by omega)
  have hfront : TokensInOrder (n.start + 1) p
      ((forestAmong source p (n.start + 1) n.children).map Part.token) :=
    (forestAmong_placed n.children hfc (by omega) (by omega) (by omega)).1
  have hback : TokensInOrder p (n.stop - 1)
      ((forestAmong source (n.stop - 1) p n.children).map Part.token) :=
    (forestAmong_placed n.children hfc (by omega) (by omega) (by omega)).1
  refine ⟨hcut, length_of_cut hfront hback ?_ ?_ ?_⟩
  · rw [← hcut]
    rw [List.length_map] at hlength
    omega
  · rwa [← hcut]
  · rwa [← hcut]

/-- A new node of a tree is inside of its new argument. -/
theorem Moves.isNew_spec {inTree : Bool} (hm : n.Moves e inTree n') (hk : n.kind = .tokenTree)
    (hf : n.Fits source) (hne : n.start ≠ n.stop) (hhost : n.HostedIn e source) {p : Nat}
    (hp : argumentPlace n.start ((n.forest source).map Part.token) = some (p : Int))
    (hc : c' ∈ n'.children) (hnew : e.isNew c' = true) :
    e.left p ≤ c'.start ∧ c'.start < c'.stop ∧ c'.stop ≤ e.right p := by
  obtain ⟨q, htokens, htext, hlo, hhi, hstart, hstop, hnot⟩ := exists_of_isNew hm hk hf hne hc hnew
  rcases hhost q htext hstart hstop with ⟨_, _, hq, _⟩ | hq
  · rw [show (n.token source).start = n.start from rfl, hp, Option.some.injEq] at hq
    rw [← hq] at hlo hhi
    exact ⟨hlo, (Edits.isNew_iff.mp hnew).2.1, hhi⟩
  · exact absurd hq hnot

/-- A kept node of the moved tree is before a new argument of the tree, inside of it, or behind it. -/
theorem Moves.argument_side {inTree : Bool} (hm : n.Moves e inTree n') (hk : n.kind = .tokenTree)
    (hf : n.Fits source) (hne : n.start ≠ n.stop) (hhost : n.HostedIn e source) {p : Nat}
    (hp : argumentPlace n.start ((n.forest source).map Part.token) = some (p : Int))
    (hc : c' ∈ n'.children)
    (hpass : c'.isPassedOver (n'.start + 1) (n'.stop - 1) = false) :
    (e.isNew c' = true ∧ e.left p ≤ c'.start ∧ c'.stop ≤ e.right p) ∨
      (e.isNew c' = false ∧ (c'.stop ≤ e.left p ∨ e.right p ≤ c'.start)) := by
  have h0 := hf.nonneg
  have hroom := (hf.wellFormed.bracketed hk).room
  have hk' : n'.kind = .tokenTree := hm.kind.trans hk
  cases hnew : e.isNew c' with
  | true =>
    obtain ⟨hlo, _, hhi⟩ := hm.isNew_spec hk hf hne hhost hp hc hnew
    exact Or.inl ⟨rfl, hlo, hhi⟩
  | false =>
    obtain ⟨c, hcm, hcmoves⟩ := (hm.treeChildren (isTree_of_tokenTree hk) (Or.inr hk)).mem
      ((mem_oldChildren hk').mpr ⟨hc, hnew⟩)
    have hfc := hf.child hcm
    have hbounds := hm.bounds hne
    have hcne := hcmoves.start_ne_stop (counts_of_kept hpass)
    have hcb := hcmoves.bounds hcne
    have hkept : c.isPassedOver (n.start + 1) (n.stop - 1) = false := by
      have hlt := (hfc.covers hcne).nonempty
      simp only [Node.token] at hlt
      obtain ⟨hnamed, _, hlo, hhi⟩ := isPassedOver_eq_false_iff.mp hpass
      have hs := Edits.left_succ (e := e) h0
      have he := Edits.left_succ (e := e) (p := n.stop - 1) (by omega)
      rw [Int.sub_add_cancel] at he
      refine isPassedOver_eq_false_iff.mpr ⟨hcmoves.isNamed ▸ hnamed, hcne, Int.not_lt.mp fun hcon => ?_,
        Int.not_lt.mp fun hcon => ?_⟩
      · have := Edits.right_lt_left (e := e) hfc.nonneg hcon
        omega
      · have := Edits.right_lt_left (e := e) (p := n.stop - 1) (by omega) hcon
        omega
    refine Or.inr ⟨rfl, ?_⟩
    rcases LogRef.Node.argument_side hf hk hp hcm hkept with h | h
    · have := Edits.left_mono (e := e) h
      exact Or.inl (by omega)
    · have := (Edits.right_le_right_iff (e := e) (Int.natCast_nonneg p) hfc.nonneg).mpr h
      exact Or.inr (by omega)

/-- The tokens of the moved tree, cut before and behind a new argument. -/
theorem Moves.forest_cut {inTree : Bool} (hm : n.Moves e inTree n') (hk : n.kind = .tokenTree)
    (hf : n.Fits source) (hne : n.start ≠ n.stop) (hhost : n.HostedIn e source) {p : Nat}
    (hp : argumentPlace n.start ((n.forest source).map Part.token) = some (p : Int))
    (hbreak : IsBreak source p) (hbreak' : IsBreak (e.apply source) (e.right p)) :
    n'.forest (e.apply source) =
      forestAmong (e.apply source) (e.left p) (e.left (n.start + 1)) n'.children ++
        (forestAmong (e.apply source) (e.right p) (e.left p) n'.children ++
          forestAmong (e.apply source) (e.right (n.stop - 1)) (e.right p) n'.children) := by
  have h0 := hf.nonneg
  have h1 := hf.within
  have hbounds := hm.bounds hne
  have horder := (forest_placed n hf).1
  rw [if_pos hk] at horder
  obtain ⟨hlo, hhi, _⟩ := argumentPlace_spec horder hp
  have hstart := Edits.left_succ (e := e) h0
  have hstop := Edits.left_succ (e := e) (p := n.stop - 1) (by omega)
  rw [Int.sub_add_cancel] at hstop
  have hlength := Edits.left_le_length (e := e) h1
  have hplace := Edits.left_mono (e := e) (p := n.start + 1) (q := p) (by omega)
  have hwidth := Edits.left_le_right (e := e) (p := p)
  have hend := Edits.right_lt_left (e := e) (p := p) (q := n.stop - 1) (by omega) hhi
  have hend' := Edits.left_le_right (e := e) (p := n.stop - 1)
  have hside {c' : Node} (hc : c' ∈ n'.children) :=
    hm.argument_side hk hf hne hhost hp hc
  have hsorted := hm.children_sorted hk hf
  have hle : ∀ c ∈ n'.children, c.start ≤ c.stop := fun c hc => hm.children_le hk hf hc
  have hinner : n'.forest (e.apply source) =
      forestAmong (e.apply source) (e.right (n.stop - 1)) (e.left (n.start + 1)) n'.children := by
    rw [forest_eq, hm.innerStart_eq hf hne, hm.innerStop_eq hf hne, if_pos hk, hstart, hstop,
      Int.add_sub_cancel]
  have hsub {c : Node} {a b : Int} (ha : e.left (n.start + 1) ≤ a) (hb : b ≤ e.right (n.stop - 1))
      (hpass : c.isPassedOver a b = false) :
      c.isPassedOver (n'.start + 1) (n'.stop - 1) = false := by
    obtain ⟨hnamed, hne, hlo, hhi⟩ := isPassedOver_eq_false_iff.mp hpass
    exact isPassedOver_eq_false_iff.mpr ⟨hnamed, hne, by omega, by omega⟩
  rw [hinner, forestAmong_cut Edits.left_nonneg hplace (by omega) (by omega)
    (isBreak_left hbreak (by omega)) hle (fun c hc hpass => ?_) (hsorted.imp fun h hc hd hq => ?_)]
  · rw [forestAmong_cut Edits.left_nonneg hwidth (by omega) (by omega) hbreak' hle
      (fun c hc hpass => ?_) (hsorted.imp fun h hc hd hq => ?_)]
    · have := hside hc (hsub hplace (Int.le_refl _) hpass)
      omega
    · exact Int.le_trans hq (h hc hd)
  · have := hside hc (hsub (Int.le_refl _) (Int.le_refl _) hpass)
    omega
  · exact Int.le_trans hq (h hc hd)

/-- A tree with a new argument holds the other texts inside of its tokens. -/
theorem HostedIn.other {p q : Nat} (hhost : n.HostedIn e source)
    (hp : argumentPlace n.start ((n.forest source).map Part.token) = some (p : Int)) (hne : q ≠ p)
    (htext : e.text q ≠ []) (hstart : n.start < q) (hstop : (q : Int) < n.stop) :
    HostsAmong e q (n.forest source) := by
  rcases hhost q htext hstart hstop with ⟨_, _, hq, _⟩ | hq
  · rw [show (n.token source).start = n.start from rfl, hp, Option.some.injEq] at hq
    exact absurd (Int.ofNat_inj.mp hq).symm hne
  · exact hq

theorem length_allGrown (edited : Bytes) (xs : List Part) :
    (allGrown e edited xs).length = xs.length := by
  induction xs with
  | nil => rfl
  | cons x xs ih => simp only [allGrown, List.length_cons, ih]

section Argument

/-! A bracketed tree with a new argument at `p`: what is before it, in it and behind it. -/

variable {inTree : Bool} {p : Nat} (hm : n.Moves e inTree n') (hk : n.kind = .tokenTree) (hf : n.Fits source)
  (hne : n.start ≠ n.stop) (hhost : n.HostedIn e source)
  (hp : argumentPlace n.start ((n.forest source).map Part.token) = some (p : Int))

include hm hk hf hne hhost hp

/-- The nodes of the new argument are passed over before and behind it. -/
theorem Moves.isPassedOver_of_isNew (hc : c' ∈ n'.children) (hnew : e.isNew c' = true) {cursor stop : Int}
    (h : stop ≤ e.left p ∨ e.right p ≤ cursor) : c'.isPassedOver cursor stop = true := by
  obtain ⟨hlo, hlt, hhi⟩ := hm.isNew_spec hk hf hne hhost hp hc hnew
  exact isPassedOver_of_apart (by omega) (by omega)

/-- Without the nodes of the new argument, the tokens before and behind it are the same. -/
theorem Moves.forestAmong_oldChildren {cursor stop : Int} (h : stop ≤ e.left p ∨ e.right p ≤ cursor) :
    forestAmong (e.apply source) stop cursor (n'.oldChildren e) =
      forestAmong (e.apply source) stop cursor n'.children := by
  rw [show n'.oldChildren e = n'.children.filter (!e.isNew ·) from if_pos (hm.kind.trans hk)]
  refine forestAmong_filter (!e.isNew ·) (fun c hc => hm.children_le hk hf hc) fun c hc hnew x hx => ?_
  exact hm.isPassedOver_of_isNew hk hf hne hhost hp hc (by simpa using hnew) (by omega)

omit hm hne in
theorem HostedIn.text_eq_nil {q : Int} (h0 : 0 ≤ q) (hqp : q ≠ p) (hlo : n.start < q) (hhi : q < n.stop)
    (hends : q = n.start + 1 ∨ q = n.stop - 1) : e.text q.toNat = [] := by
  have horder := (forest_placed n hf).1
  rw [if_pos hk] at horder
  refine Decidable.byContradiction fun htext => ?_
  have := (hhost.other hp (by omega) htext (by omega) (by omega)).within horder
  omega

variable (htrees : ∀ c ∈ n.children, ∀ c' ∈ n'.oldChildren e, c.Moves e true c' → c.isTree = true →
    c.start ≠ c.stop → c.HostedIn e source → c'.forest (e.apply source) = c.grownForest e source)
  (hbreak : IsBreak source p)

include htrees hbreak

theorem Moves.forest_before : forestAmong (e.apply source) (e.left p) (e.left (n.start + 1)) n'.children =
    allGrown e (e.apply source) (forestAmong source p (n.start + 1) n.children) := by
  have h0 := hf.nonneg
  have h1 := hf.within
  have hfc : ∀ c ∈ n.children, c.Fits source := fun c hc => hf.child hc
  have horder := (forest_placed n hf).1
  rw [if_pos hk] at horder
  obtain ⟨hlo, hhi, _⟩ := argumentPlace_spec horder hp
  rw [← hm.forestAmong_oldChildren hk hf hne hhost hp (.inl (Int.le_refl _))]
  refine forestAmong_grown (hm.treeChildren (isTree_of_tokenTree hk) (Or.inr hk)) hfc htrees (by omega) (by omega)
    (by omega) (Int.le_refl _) Edits.left_le_right (fun hlt => (Edits.right_eq_left ?_).symm) fun q hq hqlo hqhi => ?_
  · exact HostedIn.text_eq_nil hk hf hhost hp (by omega) (by omega) (by omega) (by omega) (.inl rfl)
  · have h := hhost.other hp (by omega) hq (by omega) (by omega)
    rw [(Node.forest_cut hf hk hp hbreak).1, hostsAmong_append] at h
    refine h.resolve_right fun h => ?_
    have := h.within (forestAmong_placed n.children hfc (by omega) (by omega) (by omega)).1
    omega

theorem Moves.forest_behind : forestAmong (e.apply source) (e.right (n.stop - 1)) (e.right p) n'.children =
    allGrown e (e.apply source) (forestAmong source (n.stop - 1) p n.children) := by
  have h0 := hf.nonneg
  have h1 := hf.within
  have hfc : ∀ c ∈ n.children, c.Fits source := fun c hc => hf.child hc
  have horder := (forest_placed n hf).1
  rw [if_pos hk] at horder
  obtain ⟨hlo, hhi, _⟩ := argumentPlace_spec horder hp
  rw [← hm.forestAmong_oldChildren hk hf hne hhost hp (.inr (Int.le_refl _)), Edits.right_eq_left
    (HostedIn.text_eq_nil hk hf hhost hp (by omega) (by omega) (by omega) (by omega) (.inr rfl))]
  refine forestAmong_grown (hm.treeChildren (isTree_of_tokenTree hk) (Or.inr hk)) hfc htrees (by omega) (by omega)
    (by omega) Edits.left_le_right (Int.le_refl _) (fun _ => rfl) fun q hq hqlo hqhi => ?_
  have h := hhost.other hp (by omega) hq (by omega) (by omega)
  rw [(Node.forest_cut hf hk hp hbreak).1, hostsAmong_append] at h
  refine h.resolve_left fun h => ?_
  have := h.within (forestAmong_placed n.children hfc (by omega) (by omega) (by omega)).1
  omega

/-- The tokens of a bracketed tree with a new argument. -/
theorem forest_grown_argument (hr : n'.ReadsArguments e (e.apply source)) (htokens : e.tokens p ≠ [])
    (hbreak' : IsBreak (e.apply source) (e.right p)) :
    n'.forest (e.apply source) = withArgument ((n.forest source).map Part.token) (e.tokens p)
      (allGrown e (e.apply source) (n.forest source)) := by
  have h0 := hf.nonneg
  have hbounds := hm.bounds hne
  have horder := (forest_placed n hf).1
  rw [if_pos hk] at horder
  obtain ⟨hlo, hhi, _⟩ := argumentPlace_spec horder hp
  obtain ⟨hcut, hlength⟩ := forest_cut hf hk hp hbreak
  have hmiddle : forestAmong (e.apply source) (e.right p) (e.left p) n'.children =
      (e.tokens p).map .leaf := by
    have hstart := Edits.right_lt_left (e := e) h0 hlo
    have hstop := Edits.right_lt_left (e := e) (p := p) (q := n.stop) (by omega) (by omega)
    refine hr.here (hm.kind.trans hk) htokens (by omega) (by omega) fun c hc hpass hclo => ?_
    have hside := hm.argument_side hk hf hne hhost hp hc hpass
    have hwidth := Edits.left_le_right (e := e) (p := p)
    omega
  rw [hm.forest_cut hk hf hne hhost hp hbreak hbreak', hm.forest_before hk hf hne hhost hp htrees hbreak, hmiddle,
    hm.forest_behind hk hf hne hhost hp htrees hbreak, withArgument, ← hlength]
  conv => rhs; rw [hcut, allGrown_append]
  have hlen := length_allGrown (e := e) (e.apply source)
    (forestAmong source p (n.start + 1) n.children)
  rw [List.take_left' hlen, List.drop_left' hlen]

end Argument

/-- Without a new argument of its own, a tree holds all texts inside of its tokens. -/
theorem HostedIn.plain (hhost : n.HostedIn e source)
    (h : e.argument (n.kind = .tokenTree) n.start ((n.forest source).map Part.token) = []) :
    HostedAmong e n.start n.stop (n.forest source) := by
  intro p htext hstart hstop
  rcases hhost p htext hstart hstop with ⟨hk, htokens, hp, _⟩ | hp
  · rw [show (n.token source).start = n.start from rfl] at hp
    rw [Edits.argument, if_pos hk, hp] at h
    exact absurd h htokens
  · exact hp

/-- The tokens of a tree in the edited source. -/
theorem forest_grown {inTree : Bool} (hm : n.Moves e inTree n')
    (hin : inTree = true ∨ n.kind = .tokenTree) (hf : n.Fits source) (htree : n.isTree = true)
    (hne : n.start ≠ n.stop) (hr : n'.ReadsArguments e (e.apply source))
    (hbreak : ∀ p : Nat, e.tokens p ≠ [] → IsBreak source p ∧ IsBreak (e.apply source) (e.right p))
    (hhost : n.HostedIn e source) : n'.forest (e.apply source) = n.grownForest e source := by
  obtain ⟨hw, h0, h1⟩ := hf
  induction hw generalizing n' inTree with
  | @mk kind start stop isNamed hasError isMacroName children ho hb hp hbelow ih =>
    have hf : (Node.mk kind start stop isNamed hasError isMacroName children).Fits source :=
      ⟨.mk ho hb hp hbelow, h0, h1⟩
    generalize hn : Node.mk kind start stop isNamed hasError isMacroName children = n at *
    have hchildren : n.children = children := by rw [← hn]; rfl
    have htrees : ∀ c ∈ n.children, ∀ c' ∈ n'.oldChildren e, c.Moves e true c' → c.isTree = true →
        c.start ≠ c.stop → c.HostedIn e source →
          c'.forest (e.apply source) = c.grownForest e source := by
      intro c hc c' hc' hcm hct hcne hch
      have hfc := hf.child hc
      exact ih c (hchildren ▸ hc) hcm (Or.inl rfl) hct hcne
        (hr.child (mem_of_mem_oldChildren hc')) hch hfc.nonneg hfc.within
    unfold grownForest
    cases harg : e.argument (n.kind = .tokenTree) n.start ((n.forest source).map Part.token) with
    | nil =>
      rw [withArgument_nil]
      have hplain := hhost.plain harg
      refine forest_grown_plain hm hin hf htree hne ?_ htrees hplain
      by_cases hk : n.kind = .tokenTree
      · rw [oldChildren, if_pos (hm.kind.trans hk), List.filter_eq_self]
        intro c hc
        rw [Bool.not_eq_true']
        refine Bool.eq_false_iff.mpr fun hnew => ?_
        obtain ⟨q, _, htext, _, _, hstart, hstop, hnot⟩ := exists_of_isNew hm hk hf hne hc hnew
        exact hnot (hplain q htext hstart hstop)
      · exact oldChildren_of_ne fun h => hk (hm.kind.symm.trans h)
    | cons t ts =>
      by_cases hk : n.kind = .tokenTree
      · rw [Edits.argument, if_pos (decide_eq_true hk)] at harg
        cases hplace : argumentPlace n.start ((n.forest source).map Part.token) with
        | none => rw [hplace] at harg; cases harg
        | some p =>
          have horder := (forest_placed n hf).1
          rw [if_pos hk] at horder
          have hlo := (argumentPlace_spec horder hplace).1
          have hnonneg := hf.nonneg
          obtain ⟨q, rfl⟩ := Int.eq_ofNat_of_zero_le (show 0 ≤ p by omega)
          rw [hplace] at harg
          have htokens : e.tokens q = t :: ts := harg
          have hq := hbreak q (by rw [htokens]; exact List.cons_ne_nil t ts)
          rw [← htokens]
          exact forest_grown_argument hm hk hf hne hhost hplace htrees hq.1 hr
            (by rw [htokens]; exact List.cons_ne_nil t ts) hq.2
      · rw [Edits.argument, if_neg (by simpa using hk)] at harg
        cases harg

end

end Node

end LogRef
