import LogRef.Proofs.Syntax.Layout

/-!
# Calls of an edited source

The calls of an edited source are those of its invocations, which are the old ones, moved and in the old
order.
-/
namespace LogRef

namespace Node

/-- The invocations of a tree in the order of their names. -/
def sortedInvocations (source : Bytes) (n : Node) : List Invocation :=
  (n.invocations source).mergeSort fun a b => a.nameStart ≤ b.nameStart

variable {e : Edits} {source : Bytes} {n n' : Node} {v : Invocation}

theorem mem_sortedInvocations : v ∈ n.sortedInvocations source ↔ v ∈ n.invocations source :=
  List.mem_mergeSort

theorem sortedInvocations_of_sorted
    (h : (n.invocations source).Pairwise fun a b => a.nameStart ≤ b.nameStart) :
    n.sortedInvocations source = n.invocations source :=
  List.mergeSort_of_pairwise (h.imp fun hab => decide_eq_true hab)

theorem sortedInvocations_apart (hf : n.Fits source) :
    (n.sortedInvocations source).Pairwise Invocation.Apart := by
  have hperm : (n.sortedInvocations source).Perm (n.invocations source) := List.mergeSort_perm _ _
  exact (hperm.pairwise_iff fun h => h.symm).mpr
    (invocations_apart hf.wellFormed hf.nonneg hf.within)

theorem Fits.laid (hf : n.Fits source) (h : v ∈ n.sortedInvocations source) : v.Laid source :=
  (invocations_laid hf.wellFormed hf.nonneg hf.within (mem_sortedInvocations.mp h)).1

theorem mem_oldChildren_of_not_new {c : Node} (hc : c ∈ n.children)
    (h : n.kind = .tokenTree → e.isNew c = false) : c ∈ n.oldChildren e := by
  unfold oldChildren
  by_cases hk : n.kind = .tokenTree
  · rw [if_pos hk]
    exact List.mem_filter.mpr ⟨hc, by rw [h hk]; rfl⟩
  · rw [if_neg hk]
    exact hc

/-- The ends of a moved node are in the edited source, in order. -/
theorem Moves.within (hf : n.Fits source) (hin : ∀ p : Nat, e.text p ≠ [] → p < source.length) {inTree : Bool}
    (hm : n.Moves e inTree n') : 0 ≤ n'.start ∧ n'.start ≤ n'.stop ∧ n'.stop ≤ (e.apply source).length := by
  have hle := hf.le
  have h1 := hf.within
  by_cases hempty : n.start = n.stop
  · have hsame := hm.empty hempty
    obtain ⟨hlo, hhi⟩ := hm.empty_within hempty
    have hnonneg := Edits.left_nonneg (e := e) (p := n.start)
    have hend := Edits.right_le_length hin hf.nonneg (show n.start ≤ source.length by omega)
    omega
  · obtain ⟨hstart, hstop⟩ := hm.bounds hempty
    have hlt := Edits.right_lt_left (e := e) hf.nonneg (Int.lt_iff_le_and_ne.mpr ⟨hle, hempty⟩)
    have hnonneg := Edits.right_nonneg (e := e) (p := n.start)
    have hend := Edits.left_le_length (e := e) h1
    omega

/-- A node of a new argument is in the range of the edited source, and there is nothing to look at in it. -/
theorem inRange_of_isNew (hin : ∀ p : Nat, e.text p ≠ [] → p < source.length)
    (hread : ∀ p : Nat, e.tokens p ≠ [] → e.text p ≠ []) (h : e.isNew n = true) :
    n.InRange (e.apply source).length true := by
  obtain ⟨htree, hlt, p, hp, hlo, hhi⟩ := Edits.isNew_iff.mp h
  have hlast := hin p (hread p hp)
  have hend := Edits.right_le_length hin (Int.natCast_nonneg p) (show (p : Int) ≤ source.length by omega)
  have hnonneg := Edits.left_nonneg (e := e) (p := p)
  cases n with
  | mk kind start stop isNamed hasError isMacroName children =>
    simp only [Node.start, Node.stop] at hlt hlo hhi
    rw [InRange]
    refine ⟨⟨by omega, by omega, by omega⟩, fun hopen => ?_⟩
    rw [isOpened, htree] at hopen
    cases hopen

/-- A moved tree is in the range of the edited source. -/
theorem Moves.inRange (hw : n.WellFormed source) (h0 : 0 ≤ n.start) (h1 : n.stop ≤ source.length)
    (hin : ∀ p : Nat, e.text p ≠ [] → p < source.length)
    (hread : ∀ p : Nat, e.tokens p ≠ [] → e.text p ≠ []) {inTree : Bool} (hm : n.Moves e inTree n') :
    n'.InRange (e.apply source).length inTree := by
  induction hw generalizing n' inTree with
  | @mk kind start stop isNamed hasError isMacroName children ho hb hp hbelow ih =>
    have hf : (mk kind start stop isNamed hasError isMacroName children).Fits source :=
      ⟨.mk ho hb hp hbelow, h0, h1⟩
    have hwithin := hm.within hf hin
    cases n' with
    | mk kind' start' stop' isNamed' hasError' isMacroName' children' =>
      rw [InRange]
      refine ⟨hwithin, fun hopen => allInRange_of_forall fun c' hc' => ?_⟩
      have hkind : kind' = kind := hm.kind
      have hopened : (mk kind start stop isNamed hasError isMacroName children).isOpened inTree = true := by
        rw [isOpened, ← hm.isTree]
        exact hopen
      by_cases hnew : kind' = .tokenTree ∧ e.isNew c' = true
      · rw [hnew.1, decide_eq_true rfl, Bool.or_true]
        exact inRange_of_isNew hin hread hnew.2
      · have hold := mem_oldChildren_of_not_new (e := e)
          (n := mk kind' start' stop' isNamed' hasError' isMacroName' children') hc'
          fun hk => Bool.eq_false_iff.mpr fun h => hnew ⟨hk, h⟩
        obtain ⟨c, hc, hmoves⟩ := (hm.children hopened).mem hold
        have hcf := hf.child hc
        rw [hkind]
        exact ih c hc hcf.nonneg hcf.within hmoves

end Node

/-- Every text is where an invocation lets it be, and new arguments are closed off on both sides. -/
structure Edits.Suits (e : Edits) (source : Bytes) (n : Node) : Prop where
  hosted : ∀ p : Nat, e.text p ≠ [] → ∃ v ∈ n.invocations source, v.Hosts e p
  written : ∀ p : Nat, e.tokens p ≠ [] → e.text p ≠ []
  closed : e.Closed
  breaks : ∀ p : Nat, e.tokens p ≠ [] →
    IsBreak source p ∧ IsBreak (e.apply source) (e.right p)

namespace Node

variable {e : Edits} {source : Bytes} {n n' : Node}

theorem Fits.text_lt (hf : n.Fits source) (hs : e.Suits source n) {p : Nat} (h : e.text p ≠ []) :
    p < source.length := by
  obtain ⟨v, hv, hhosts⟩ := hs.hosted p h
  have hin := holds_of_mem hf.wellFormed hf.nonneg hf.within hv hhosts
  have := hf.within
  omega

theorem Fits.calls_eq (hf : n.Fits source) :
    callsOfTree source n = .ok ⟨Span.ofRange (byteLineStarts source) 0 source.length,
      (n.sortedInvocations source).map (Invocation.call source (byteLineStarts source))⟩ :=
  callsOfTree_eq (hf.inRange false)

/-- The calls of a moved tree are those of the old invocations, moved. -/
theorem Moves.calls_eq (hm : n.Moves e false n') (hf : n.Fits source) (hs : e.Suits source n)
    (hr : n'.ReadsArguments e (e.apply source)) :
    callsOfTree (e.apply source) n' =
      .ok ⟨Span.ofRange (byteLineStarts (e.apply source)) 0 (e.apply source).length,
        ((n.sortedInvocations source).map (Invocation.grown e (e.apply source))).map
          (Invocation.call (e.apply source) (byteLineStarts (e.apply source)))⟩ := by
  have hin := hm.inRange hf.wellFormed hf.nonneg hf.within (fun p hp => hf.text_lt hs hp) hs.written
  have hsame := invocations_grown hs.closed hs.breaks hf.wellFormed hf.nonneg hf.within
    (hf.held hs.hosted) hm hr
  have hsort : (n.sortedInvocations source).map (Invocation.grown e (e.apply source)) =
      (n'.invocations (e.apply source)).mergeSort fun a b => a.nameStart ≤ b.nameStart := by
    rw [hsame, sortedInvocations]
    refine List.map_mergeSort fun a ha b hb => ?_
    have ha0 := (invocations_laid hf.wellFormed hf.nonneg hf.within ha).1.named
    have hb0 := (invocations_laid hf.wellFormed hf.nonneg hf.within hb).1.named
    simp only [Invocation.grown, Edits.right_le_right_iff ha0 hb0]
  rw [callsOfTree_eq hin, hsort]

end Node

end LogRef
