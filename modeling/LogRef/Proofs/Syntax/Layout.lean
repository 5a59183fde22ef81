import LogRef.Proofs.Syntax.GrownInvocations

/-!
# Where invocations are

The argument trees of two invocations are apart, or one lies in a tree among the tokens of the other. An
offset that is at the level of an invocation, inside of its tree but of no tree among its tokens, is therefore
at the level of no other one.
-/
namespace LogRef

namespace Invocation

/-- The tokens come in order between the brackets of the argument tree, inside of the source. -/
structure Laid (source : Bytes) (v : Invocation) : Prop where
  named : 0 ≤ v.nameStart
  nameWithin : v.nameStart ≤ source.length
  nonneg : 0 ≤ v.start
  within : v.stop ≤ source.length
  ordered : TokensInOrder (v.start + 1) (v.stop - 1) v.tokens
  covers : ∀ t ∈ v.tokens, t.Covers source

/-- The second tree is in a tree among the tokens of the first. -/
def Encloses (v w : Invocation) : Prop :=
  ∃ t ∈ v.tokens, t.kind = .tree ∧ t.start ≤ w.start ∧ w.stop ≤ t.stop

def Apart (v w : Invocation) : Prop :=
  v.stop ≤ w.start ∨ w.stop ≤ v.start ∨ v.Encloses w ∨ w.Encloses v

/-- The offset is inside of the argument tree, and of no tree among its tokens. -/
def AtLevel (p : Int) (v : Invocation) : Prop :=
  v.start < p ∧ p < v.stop ∧ ∀ t ∈ v.tokens, t.kind = .tree → p ≤ t.start ∨ t.stop ≤ p

/-- The offset is one where a text may be: the head of a string literal, or the place of a new argument
where there is a string literal. -/
def Hosts (e : Edits) (p : Nat) (v : Invocation) : Prop :=
  (∃ t ∈ v.tokens, t.kind = .string ∧ t.start < p ∧ p < t.stop ∧ e.tokens p = [] ∧
    ∃ q, t.contentRange = some ((p : Int), q)) ∨
  (e.tokens p ≠ [] ∧ argumentPlace v.start v.tokens = some (p : Int) ∧
    ∃ t ∈ v.tokens, t.kind = .string)

variable {source : Bytes} {e : Edits} {v w : Invocation} {p : Int}

theorem Apart.symm (h : v.Apart w) : w.Apart v := by
  rcases h with h | h | h | h
  · exact Or.inr (Or.inl h)
  · exact Or.inl h
  · exact Or.inr (Or.inr (Or.inr h))
  · exact Or.inr (Or.inr (Or.inl h))

instance : Std.Symm Apart := ⟨fun _ _ h => h.symm⟩

theorem Apart.atLevel (h : v.Apart w) (hv : v.AtLevel p) (hw : w.AtLevel p) : False := by
  obtain ⟨hvlo, hvhi, hvtrees⟩ := hv
  obtain ⟨hwlo, hwhi, hwtrees⟩ := hw
  rcases h with h | h | ⟨t, ht, hk, hlo, hhi⟩ | ⟨t, ht, hk, hlo, hhi⟩
  · omega
  · omega
  · have := hvtrees t ht hk
    omega
  · have := hwtrees t ht hk
    omega

/-- What is inside of a token that is no tree is at the level of the invocation. -/
theorem Laid.atLevel (h : v.Laid source) {t : Token} (ht : t ∈ v.tokens) (hk : t.kind ≠ .tree)
    (hlo : t.start < p) (hhi : p < t.stop) : v.AtLevel p := by
  have hb := h.ordered.mem ht
  refine ⟨by omega, by omega, fun u hu htree => ?_⟩
  rcases h.ordered.apart ht hu with rfl | hapart
  · exact absurd htree hk
  · omega

theorem Laid.atLevel_of_argumentPlace (h : v.Laid source)
    (hplace : argumentPlace v.start v.tokens = some p) : v.AtLevel p := by
  obtain ⟨hlo, hhi, _, hbefore, hbehind, _⟩ := argumentPlace_spec h.ordered hplace
  refine ⟨hlo, by omega, fun u hu _ => ?_⟩
  rw [← List.take_append_drop (argumentIndex v.tokens) v.tokens, List.mem_append] at hu
  rcases hu with hu | hu
  · exact Or.inr (hbefore u hu)
  · exact Or.inl (hbehind u hu)

theorem Laid.atLevel_of_hosts (h : v.Laid source) {p : Nat} (hp : v.Hosts e p) :
    v.AtLevel (p : Int) := by
  rcases hp with ⟨t, ht, hk, hlo, hhi, _⟩ | ⟨_, hplace, _⟩
  · exact h.atLevel ht (by rw [hk]; decide) hlo hhi
  · exact h.atLevel_of_argumentPlace hplace

end Invocation

section

variable {source : Bytes} {e : Edits} {v : Invocation}

theorem none_covers (t : Token) (h : t ∈ ([] : List Token)) : t.Covers source := by cases h

theorem mem_invocationBefore {before tokens : List Token} {t : Token} {isBracketed hasError : Bool}
    (h : v ∈ invocationBefore before t isBracketed hasError tokens) :
    isBracketed = true ∧ v.start = t.start ∧ v.stop = t.stop ∧ v.tokens = tokens ∧
      ∃ u ∈ before, v.nameStart = u.start := by
  match before with
  | [] | [_] => cases h
  | bang :: last :: more =>
    rw [invocationBefore] at h
    split at h
    · next hc =>
      simp only [Bool.and_eq_true] at hc
      obtain rfl := List.mem_singleton.mp h
      refine ⟨hc.1.1.1, rfl, rfl, rfl, ?_⟩
      -- the name begins with a token of the path, or is the last one alone
      have hpath : ((last :: pathBefore more).reverse.headD last) ∈ (last :: pathBefore more).reverse := by
        cases hrev : (last :: pathBefore more).reverse with
        | nil => simp at hrev
        | cons u us => exact List.mem_cons_self
      rw [List.mem_reverse] at hpath
      refine ⟨_, ?_, rfl⟩
      rcases List.mem_cons.mp hpath with heq | hmem
      · rw [heq]
        simp
      · exact List.mem_cons_of_mem _ (List.mem_cons_of_mem _ (mem_of_mem_pathBefore hmem).1)
    · cases h

theorem mem_invocationsAmong {before : List Token} {xs : List Part}
    (h : v ∈ invocationsAmong before xs) :
    ∃ a x b, xs = a ++ x :: b ∧ v ∈ x.invocations ((a.map Part.token).reverse ++ before) := by
  induction xs generalizing before with
  | nil => cases h
  | cons x xs ih =>
    rw [invocationsAmong, List.mem_append] at h
    rcases h with h | h
    · exact ⟨[], x, xs, rfl, h⟩
    · obtain ⟨a, y, b, rfl, hy⟩ := ih h
      refine ⟨x :: a, y, b, rfl, ?_⟩
      rwa [List.map_cons, List.reverse_cons, List.append_assoc, List.singleton_append]

theorem kind_of_mem_invocations {x : Part} (hp : x.Placed source) {before : List Token}
    (h : v ∈ x.invocations before) : x.token.kind = .tree := by
  cases x with
  | leaf t => cases h
  | tree t isBracketed hasError inside => exact hp.2.1

/-- The invocations at and inside a token are inside of it. -/
theorem Part.invocations_laid (x : Part) (hp : x.Placed source) {before : List Token}
    (hbefore : ∀ t ∈ before, t.Covers source) (h : v ∈ x.invocations before) :
    v.Laid source ∧ x.token.start ≤ v.start ∧ v.stop ≤ x.token.stop := by
  induction x using Part.ind generalizing before with
  | leaf t => cases h
  | tree t isBracketed hasError inside ih =>
    rw [Part.Placed] at hp
    obtain ⟨hcovers, _, horder, hall⟩ := hp
    have h0 := hcovers.nonneg
    have h1 := hcovers.within
    have hinside : ∀ u ∈ inside.map Part.token, u.Covers source := by
      intro u hu
      obtain ⟨y, hy, rfl⟩ := List.mem_map.mp hu
      exact (hall.mem hy).covers
    rw [Part.invocations, List.mem_append] at h
    rcases h with h | h
    · obtain ⟨rfl, hstart, hstop, htokens, u, hu, hname⟩ := mem_invocationBefore h
      have hu0 := (hbefore u hu).nonneg
      have hu1 := (hbefore u hu).nonempty
      have hu2 := (hbefore u hu).within
      simp only [if_true] at horder
      rw [← hstart, ← hstop, ← htokens] at horder
      exact ⟨⟨by omega, by omega, by omega, by omega, horder, htokens ▸ hinside⟩,
        Int.le_of_eq hstart.symm, Int.le_of_eq hstop⟩
    · obtain ⟨a, y, b, rfl, hy⟩ := mem_invocationsAmong h
      have hmem : y ∈ a ++ y :: b := by simp
      have hpassed : ∀ u ∈ (a.map Part.token).reverse ++ [], u.Covers source := by
        intro u hu
        rw [List.append_nil, List.mem_reverse] at hu
        exact hinside u (by rw [List.map_append, List.mem_append]; exact Or.inl hu)
      obtain ⟨hlaid, hlo, hhi⟩ := ih y hmem (hall.mem hmem) hpassed hy
      have hb := horder.mem (List.mem_map_of_mem hmem)
      have hd : (0 : Int) ≤ if isBracketed = true then 1 else 0 := by split <;> decide
      exact ⟨hlaid, by simp only [Part.token]; omega, by simp only [Part.token]; omega⟩

/-- An invocation of a list of tokens is inside of a tree among them. -/
theorem tree_of_mem_invocationsAmong {xs : List Part} (hall : AllPlaced source xs) {before : List Token}
    (hbefore : ∀ t ∈ before, t.Covers source) (h : v ∈ invocationsAmong before xs) :
    ∃ t ∈ xs.map Part.token, t.kind = .tree ∧ t.start ≤ v.start ∧ v.stop ≤ t.stop := by
  obtain ⟨a, y, b, rfl, hy⟩ := mem_invocationsAmong h
  have hmem : y ∈ a ++ y :: b := by simp
  have hpassed : ∀ t ∈ (a.map Part.token).reverse ++ before, t.Covers source := by
    intro t ht
    rcases List.mem_append.mp ht with ht | ht
    · obtain ⟨z, hz, rfl⟩ := List.mem_map.mp (List.mem_reverse.mp ht)
      exact (hall.mem (List.mem_append_left _ hz)).covers
    · exact hbefore t ht
  obtain ⟨_, hlo, hhi⟩ := y.invocations_laid (hall.mem hmem) hpassed hy
  exact ⟨y.token, List.mem_map_of_mem hmem, kind_of_mem_invocations (hall.mem hmem) hy, hlo, hhi⟩

/-- The invocations of tokens in order are apart if those of each token are. -/
theorem invocationsAmong_apart {lo hi : Int} {xs : List Part}
    (horder : TokensInOrder lo hi (xs.map Part.token)) (hall : AllPlaced source xs)
    (hx : ∀ x ∈ xs, ∀ before : List Token, (∀ t ∈ before, t.Covers source) →
      (x.invocations before).Pairwise Invocation.Apart)
    {before : List Token} (hbefore : ∀ t ∈ before, t.Covers source) :
    (invocationsAmong before xs).Pairwise Invocation.Apart := by
  induction xs generalizing before lo with
  | nil => exact List.Pairwise.nil
  | cons x xs ih =>
    rw [AllPlaced] at hall
    obtain ⟨_, _, hrest⟩ := horder
    have hnext : ∀ t ∈ x.token :: before, t.Covers source := by
      intro t ht
      rcases List.mem_cons.mp ht with rfl | ht
      · exact hall.1.covers
      · exact hbefore t ht
    rw [invocationsAmong]
    refine List.pairwise_append.mpr ⟨hx x List.mem_cons_self before hbefore,
      ih hrest hall.2 (fun y hy => hx y (List.mem_cons_of_mem x hy)) hnext, ?_⟩
    intro v hv w hw
    obtain ⟨t, ht, _, hlo, _⟩ := tree_of_mem_invocationsAmong hall.2 hnext hw
    obtain ⟨_, _, hvhi⟩ := x.invocations_laid hall.1 hbefore hv
    have hb := hrest.mem ht
    exact Or.inl (by omega)

theorem Part.invocations_apart (x : Part) (hp : x.Placed source) {before : List Token}
    (hbefore : ∀ t ∈ before, t.Covers source) :
    (x.invocations before).Pairwise Invocation.Apart := by
  induction x using Part.ind generalizing before with
  | leaf t => exact List.Pairwise.nil
  | tree t isBracketed hasError inside ih =>
    rw [Part.Placed] at hp
    obtain ⟨_, _, horder, hall⟩ := hp
    rw [Part.invocations]
    refine List.pairwise_append.mpr ⟨?_, invocationsAmong_apart horder hall
      (fun y hy b hb => ih y hy (hall.mem hy) hb) none_covers, ?_⟩
    · match before with
      | [] | [_] => exact List.Pairwise.nil
      | bang :: last :: more =>
        rw [invocationBefore]
        split
        · exact List.pairwise_singleton _ _
        · exact List.Pairwise.nil
    · -- what is inside of the tree is inside of one of its tokens
      intro v hv w hw
      obtain ⟨_, _, _, htokens, _⟩ := mem_invocationBefore hv
      obtain ⟨u, hu, hin⟩ := tree_of_mem_invocationsAmong hall none_covers hw
      exact Or.inr (Or.inr (Or.inl ⟨u, htokens ▸ hu, hin⟩))

theorem Part.hosts_of_among {t : Token} {isBracketed hasError : Bool} {inside : List Part} {p : Nat}
    (hp : (Part.tree t isBracketed hasError inside).Placed source) (h : HostsAmong e p inside) :
    t.start < p ∧ p < t.stop ∧ (Part.tree t isBracketed hasError inside).Hosts e p := by
  rw [Part.Placed] at hp
  obtain ⟨_, _, horder, _⟩ := hp
  have hd : (0 : Int) ≤ if isBracketed = true then 1 else 0 := by split <;> decide
  have hb := h.within horder
  rw [Part.Hosts]
  exact ⟨by omega, by omega, Or.inr h⟩

/-- A bracketed tree lets a text be where the invocation with its tokens does. -/
theorem Part.hosts_of_tokens {t : Token} {hasError : Bool} {inside : List Part} {p : Nat}
    (hp : (Part.tree t true hasError inside).Placed source) (hstart : v.start = t.start)
    (htokens : v.tokens = inside.map Part.token) (hv : v.Hosts e p) :
    t.start < p ∧ p < t.stop ∧ (Part.tree t true hasError inside).Hosts e p := by
  have hplaced := hp
  rw [Part.Placed] at hp
  obtain ⟨_, _, horder, hall⟩ := hp
  rw [Invocation.Hosts, hstart, htokens] at hv
  rcases hv with ⟨u, hu, hk, hlo, hhi, hnone, hrange⟩ | ⟨hsome, hplace, u, hu, hk⟩
  · obtain ⟨y, hy, rfl⟩ := List.mem_map.mp hu
    refine Part.hosts_of_among hplaced (hostsAmong_iff.mpr ⟨y, hy, hlo, hhi, ?_⟩)
    cases y with
    | leaf u => exact ⟨hk, hnone, hrange⟩
    | tree u isBracketed hasError inside =>
      have htree : u.kind = .tree := (hall.mem hy).2.1
      have hstring : u.kind = .string := hk
      rw [htree] at hstring
      cases hstring
  · obtain ⟨y, hy, rfl⟩ := List.mem_map.mp hu
    simp only [if_true] at horder
    obtain ⟨hlo, hhi, _⟩ := argumentPlace_spec horder hplace
    exact ⟨hlo, by omega, Or.inl ⟨rfl, hsome, hplace, y, hy, hk⟩⟩

/-- A token lets a text be where an invocation at or inside of it does. -/
theorem Part.hosts_of_mem (x : Part) (hp : x.Placed source) {before : List Token} {p : Nat}
    (h : v ∈ x.invocations before) (hv : v.Hosts e p) :
    x.token.start < p ∧ p < x.token.stop ∧ x.Hosts e p := by
  induction x using Part.ind generalizing before with
  | leaf t => cases h
  | tree t isBracketed hasError inside ih =>
    have hall : AllPlaced source inside := hp.2.2.2
    rw [Part.invocations, List.mem_append] at h
    rcases h with h | h
    · obtain ⟨rfl, hstart, _, htokens, _⟩ := mem_invocationBefore h
      exact Part.hosts_of_tokens hp hstart htokens hv
    · obtain ⟨a, y, b, rfl, hy⟩ := mem_invocationsAmong h
      have hmem : y ∈ a ++ y :: b := by simp
      exact Part.hosts_of_among hp (hostsAmong_iff.mpr ⟨y, hmem, ih y hmem (hall.mem hmem) hy⟩)

namespace Node

variable {n c : Node}

/-- A bracketed tree as a token of its own. -/
def part (source : Bytes) (n : Node) : Part :=
  .tree (n.token source) (n.kind = .tokenTree) n.hasError (n.forest source)

theorem invocations_eq_part (h : n.kind = .tokenTree) :
    n.invocations source = (n.part source).invocations [] := by
  rw [invocations_of_tokenTree h, part, Part.invocations]
  rfl

theorem mem_allInvocations {ns : List Node} :
    v ∈ allInvocations source ns ↔ ∃ c ∈ ns, v ∈ c.invocations source := by
  induction ns with
  | nil => simp [allInvocations]
  | cons c ns ih => simp [allInvocations, ih]

theorem ownInvocations_cases (source : Bytes) (n : Node) : n.ownInvocations source = [] ∨
    ∃ name ∈ n.children, ∃ tree ∈ n.children, tree.kind = .tokenTree ∧ ∃ v, n.ownInvocations source = [v] ∧
      v.nameStart = name.start ∧ v.start = tree.start ∧ v.stop = tree.stop ∧
        v.tokens = (tree.forest source).map Part.token := by
  unfold ownInvocations
  split
  · next name tree hname htree =>
    split
    · refine Or.inr ⟨name, List.mem_of_find?_eq_some hname, tree, List.mem_of_find?_eq_some htree, ?_, _,
        rfl, rfl, rfl, rfl, rfl⟩
      simpa using List.find?_some htree
    · exact Or.inl rfl
  · exact Or.inl rfl

/-- The invocations at and below a node are inside of it. -/
theorem invocations_laid (hw : n.WellFormed source) (h0 : 0 ≤ n.start) (h1 : n.stop ≤ source.length)
    (h : v ∈ n.invocations source) : v.Laid source ∧ n.start ≤ v.start ∧ v.stop ≤ n.stop := by
  induction hw with
  | @mk kind start stop isNamed hasError isMacroName children ho hb hp hbelow ih =>
    have hf : (mk kind start stop isNamed hasError isMacroName children).Fits source :=
      ⟨.mk ho hb hp hbelow, h0, h1⟩
    by_cases hk : (mk kind start stop isNamed hasError isMacroName children).kind = .tokenTree
    · rw [invocations_eq_part hk] at h
      exact Part.invocations_laid _ (hf.placed hk) none_covers h
    · rw [invocations_of_ne_tokenTree hk, List.mem_append] at h
      rcases h with h | h
      · rcases ownInvocations_cases source (mk kind start stop isNamed hasError isMacroName children) with
          hnone | ⟨name, hname, tree, htree, htk, w, hown, hwname, hwstart, hwstop, hwtokens⟩
        · rw [hnone] at h
          cases h
        · rw [hown, List.mem_singleton] at h
          subst h
          have hnamef := hf.child hname
          have hname0 := hnamef.nonneg
          have hname1 := hnamef.within
          have hnamele := hnamef.le
          have htreef := hf.child htree
          have htree0 := htreef.nonneg
          have htree1 := htreef.within
          have hplaced := htreef.placed htk
          rw [Part.Placed] at hplaced
          obtain ⟨_, _, horder, hall⟩ := hplaced
          simp only [htk, decide_true, if_true, Node.token] at horder
          have hin := ho.mem htree
          rw [← hwstart, ← hwstop, ← hwtokens] at horder
          refine ⟨⟨by omega, by omega, by omega, by omega, horder, fun t ht => ?_⟩, ?_, ?_⟩
          · rw [hwtokens] at ht
            obtain ⟨y, hy, rfl⟩ := List.mem_map.mp ht
            exact (hall.mem hy).covers
          · rw [hwstart]
            exact hin.1
          · rw [hwstop]
            exact hin.2.2
      · obtain ⟨c, hc, hv⟩ := mem_allInvocations.mp h
        obtain ⟨hlaid, hlo, hhi⟩ := ih c hc (hf.child hc).nonneg (hf.child hc).within hv
        have hin := ho.mem hc
        simp only [Node.start, Node.stop]
        exact ⟨hlaid, by omega, by omega⟩

theorem allInvocations_apart {lo hi : Int} {ns : List Node} (ho : InOrder lo hi ns)
    (hf : ∀ c ∈ ns, c.Fits source)
    (hc : ∀ c ∈ ns, (c.invocations source).Pairwise Invocation.Apart) :
    (allInvocations source ns).Pairwise Invocation.Apart := by
  induction ns generalizing lo with
  | nil => exact List.Pairwise.nil
  | cons c ns ih =>
    obtain ⟨_, _, hrest⟩ := ho
    rw [allInvocations]
    refine List.pairwise_append.mpr ⟨hc c List.mem_cons_self,
      ih hrest (fun d hd => hf d (List.mem_cons_of_mem c hd))
        (fun d hd => hc d (List.mem_cons_of_mem c hd)), ?_⟩
    intro v hv w hw
    obtain ⟨d, hd, hw⟩ := mem_allInvocations.mp hw
    have hcf := hf c List.mem_cons_self
    have hdf := hf d (List.mem_cons_of_mem c hd)
    have hv' := invocations_laid hcf.wellFormed hcf.nonneg hcf.within hv
    have hw' := invocations_laid hdf.wellFormed hdf.nonneg hdf.within hw
    have hin := hrest.mem hd
    exact Or.inl (by omega)

/-- Invocations are apart, or one is inside of a token of the other. -/
theorem invocations_apart (hw : n.WellFormed source) (h0 : 0 ≤ n.start) (h1 : n.stop ≤ source.length) :
    (n.invocations source).Pairwise Invocation.Apart := by
  induction hw with
  | @mk kind start stop isNamed hasError isMacroName children ho hb hp hbelow ih =>
    have hf : (mk kind start stop isNamed hasError isMacroName children).Fits source :=
      ⟨.mk ho hb hp hbelow, h0, h1⟩
    by_cases hk : (mk kind start stop isNamed hasError isMacroName children).kind = .tokenTree
    · rw [invocations_eq_part hk]
      exact Part.invocations_apart _ (hf.placed hk) none_covers
    · have hall : (allInvocations source children).Pairwise Invocation.Apart :=
        allInvocations_apart ho (fun c hc => hf.child hc) fun c hc =>
          ih c hc (hf.child hc).nonneg (hf.child hc).within
      rw [invocations_of_ne_tokenTree hk]
      rcases ownInvocations_cases source (mk kind start stop isNamed hasError isMacroName children) with
        hnone | ⟨_, _, tree, htree, htk, v, hown, _, hvstart, hvstop, hvtokens⟩
      · rw [hnone]
        exact hall
      · rw [hown]
        refine List.pairwise_append.mpr ⟨List.pairwise_singleton _ _, hall, fun u hu w hw => ?_⟩
        obtain rfl := List.mem_singleton.mp hu
        obtain ⟨c, hc, hw⟩ := mem_allInvocations.mp hw
        have hcf := hf.child hc
        have hw' := invocations_laid hcf.wellFormed hcf.nonneg hcf.within hw
        rcases ho.apart htree hc with rfl | hapart
        · -- the invocation is inside of the argument tree itself
          rw [invocations_of_tokenTree htk] at hw
          have hall := (forest_placed tree hcf).2
          obtain ⟨t, ht, hin⟩ := tree_of_mem_invocationsAmong hall none_covers hw
          exact Or.inr (Or.inr (Or.inl ⟨t, hvtokens ▸ ht, hin⟩))
        · rcases hapart with hapart | hapart
          · exact Or.inl (by omega)
          · exact Or.inr (Or.inl (by omega))

/-- A node lets a text be where an invocation at or below it does. -/
theorem holds_of_mem (hw : n.WellFormed source) (h0 : 0 ≤ n.start) (h1 : n.stop ≤ source.length)
    (h : v ∈ n.invocations source) {p : Nat} (hv : v.Hosts e p) :
    n.start < p ∧ p < n.stop ∧ n.Holds e source p := by
  induction hw with
  | @mk kind start stop isNamed hasError isMacroName children ho hb hp hbelow ih =>
    have hf : (mk kind start stop isNamed hasError isMacroName children).Fits source :=
      ⟨.mk ho hb hp hbelow, h0, h1⟩
    by_cases hk : (mk kind start stop isNamed hasError isMacroName children).kind = .tokenTree
    · rw [invocations_eq_part hk] at h
      rw [holds_of_tokenTree hk]
      exact Part.hosts_of_mem _ (hf.placed hk) h hv
    · have hchild : (∃ c ∈ children, c.start < p ∧ p < c.stop ∧ c.Holds e source p) →
          start < p ∧ p < stop ∧
            (mk kind start stop isNamed hasError isMacroName children).Holds e source p := by
        rintro ⟨c, hc, hlo, hhi, hh⟩
        have hin := ho.mem hc
        exact ⟨by omega, by omega, (holds_of_ne_tokenTree hk).mpr ⟨c, hc, hlo, hhi, hh⟩⟩
      rw [invocations_of_ne_tokenTree hk, List.mem_append] at h
      refine hchild ?_
      rcases h with h | h
      · rcases ownInvocations_cases source (mk kind start stop isNamed hasError isMacroName children) with
          hnone | ⟨_, _, tree, htree, htk, w, hown, _, hwstart, hwstop, hwtokens⟩
        · rw [hnone] at h
          cases h
        · rw [hown, List.mem_singleton] at h
          subst h
          have hplaced := (hf.child htree).placed htk
          simp only [htk, decide_true] at hplaced
          refine ⟨tree, htree, ?_⟩
          rw [holds_of_tokenTree htk]
          simp only [htk, decide_true]
          exact Part.hosts_of_tokens hplaced hwstart hwtokens hv
      · obtain ⟨c, hc, hv'⟩ := mem_allInvocations.mp h
        exact ⟨c, hc, ih c hc (hf.child hc).nonneg (hf.child hc).within hv'⟩

/-- A tree holds texts that are all where its invocations let them be. -/
theorem Fits.held (hf : n.Fits source)
    (h : ∀ p : Nat, e.text p ≠ [] → ∃ v ∈ n.invocations source, v.Hosts e p) : n.Held e source := by
  have hinside (p : Nat) (htext : e.text p ≠ []) : n.start < p ∧ p < n.stop ∧ n.Holds e source p := by
    obtain ⟨v, hv, hhosts⟩ := h p htext
    exact holds_of_mem hf.wellFormed hf.nonneg hf.within hv hhosts
  have h0 := hf.nonneg
  have hle := hf.le
  refine ⟨fun p htext _ _ => (hinside p htext).2.2, ?_, ?_⟩
  · refine Decidable.byContradiction fun htext => ?_
    have := hinside n.start.toNat htext
    omega
  · refine Decidable.byContradiction fun htext => ?_
    have := hinside n.stop.toNat htext
    omega

end Node

end

end LogRef
