import LogRef.Proofs.Results
import LogRef.Proofs.Syntax.Places

/-!
# The walk over a syntax tree

The calls of a tree are collected with a stack of nodes. Whatever the tree, that gives what plain recursion gives: a
node before its children, and these from the first to the last. Inside of the source nothing fails, and the calls are
those of the places where one is written, each once, sorted by where their names begin.
-/
namespace LogRef

namespace Node

mutual

/-- The calls at and below a node by plain recursion: those inside of a bracketed tree, and for any other node its own,
if it is an invocation, and then those of its children. -/
def plainCalls (source : Bytes) (lines : List Nat) : Node → Except OutOfSource (List Call)
  | n@(mk kind _ _ _ _ _ children) =>
    if kind = .tokenTree then nestedCalls source lines n
    else do
      let own ← (if kind = .macroInvocation then callOfInvocation source lines n else .ok [])
      let below ← allPlainCalls source lines children
      return own ++ below

def allPlainCalls (source : Bytes) (lines : List Nat) : List Node → Except OutOfSource (List Call)
  | [] => .ok []
  | n :: rest => do
    let first ← n.plainCalls source lines
    let more ← allPlainCalls source lines rest
    return first ++ more

end

variable {source : Bytes} {lines : List Nat} {n : Node}

theorem plainCalls_of_tokenTree (h : n.kind = .tokenTree) : n.plainCalls source lines = ownCalls source lines n := by
  cases n
  rw [plainCalls, ownCalls, h]
  exact if_pos h

theorem ownCalls_of_ne_tokenTree (h : n.kind ≠ .tokenTree) : ownCalls source lines n =
    if n.kind = .macroInvocation then callOfInvocation source lines n else .ok [] := by
  unfold ownCalls
  split
  · next hk => exact absurd hk h
  · next hk => rw [if_pos hk]
  · next hk => rw [if_neg hk]

theorem plainCalls_of_ne_tokenTree (h : n.kind ≠ .tokenTree) : n.plainCalls source lines = (do
    let own ← ownCalls source lines n
    let below ← allPlainCalls source lines n.children
    return own ++ below) := by
  rw [ownCalls_of_ne_tokenTree h]
  cases n
  rw [plainCalls]
  exact if_neg h

theorem allPlainCalls_append (a b : List Node) : allPlainCalls source lines (a ++ b) = (do
    let front ← allPlainCalls source lines a
    let back ← allPlainCalls source lines b
    return front ++ back) := by
  induction a with
  | nil =>
    rw [List.nil_append, allPlainCalls]
    exact (bind_pure _).symm
  | cons n a ih => simp only [List.cons_append, allPlainCalls, ih, bind_assoc, pure_bind, List.append_assoc]

/-- The stack gives what plain recursion gives, on every stack. -/
theorem collectCalls_eq_plain (source : Bytes) (lines : List Nat) (stack : List Node) :
    collectCalls source lines stack = allPlainCalls source lines stack := by
  fun_induction collectCalls source lines stack with
  | case1 => rfl
  | case2 n stack ih =>
    rw [ih, allPlainCalls]
    by_cases hk : n.kind = .tokenTree
    · rw [plainCalls_of_tokenTree hk, nextNodes, if_pos hk, List.nil_append]
    · rw [plainCalls_of_ne_tokenTree hk, nextNodes, if_neg hk, allPlainCalls_append]
      simp only [bind_assoc, pure_bind, List.append_assoc]

theorem allPlainCalls_singleton (source : Bytes) (lines : List Nat) (n : Node) :
    allPlainCalls source lines [n] = n.plainCalls source lines := by
  rw [allPlainCalls, allPlainCalls]
  cases n.plainCalls source lines with
  | error e => rfl
  | ok calls => exact congrArg Except.ok (List.append_nil calls)

/-- Where all nodes are in range, plain recursion does not fail either. -/
theorem InRange.plainCalls_eq (h : n.InRange source.length false) : n.plainCalls source lines =
    .ok ((n.invocations source).map (Invocation.call source lines)) := by
  have hall : AllInRange source.length false [n] := by
    rw [AllInRange, AllInRange]
    exact ⟨h, trivial⟩
  rw [← allPlainCalls_singleton, ← collectCalls_eq_plain, collectCalls_eq [n] hall, allInvocations, allInvocations,
    List.append_nil]

end Node

/-- The stable sort of a list by a key: the same elements, ascending, and those of one key in the order they had. -/
structure StableSort {α : Type} (key : α → Int) (xs sorted : List α) : Prop where
  perm : sorted.Perm xs
  ascending : sorted.Pairwise fun a b => key a ≤ key b
  stable : ∀ k, sorted.filter (key · = k) = xs.filter (key · = k)

theorem stableSort_mergeSort {α : Type} (key : α → Int) (xs : List α) :
    StableSort key xs (xs.mergeSort fun a b => key a ≤ key b) := by
  have htrans : ∀ a b c : α, decide (key a ≤ key b) = true → decide (key b ≤ key c) = true →
      decide (key a ≤ key c) = true := by
    simp only [decide_eq_true_eq]
    omega
  have htotal : ∀ a b : α, (decide (key a ≤ key b) || decide (key b ≤ key a)) = true := by
    simp only [Bool.or_eq_true, decide_eq_true_eq]
    omega
  have hperm := List.mergeSort_perm xs fun a b => decide (key a ≤ key b)
  refine ⟨hperm, (List.pairwise_mergeSort htrans htotal xs).imp of_decide_eq_true, fun k => ?_⟩
  -- the elements of one key are in order in the list, so the sort keeps them as they are
  have hequal : (xs.filter (key · = k)).Pairwise fun a b => decide (key a ≤ key b) = true := by
    refine List.pairwise_filter.mpr (List.pairwise_of_forall fun a b ha hb => ?_)
    rw [decide_eq_true_eq] at ha hb ⊢
    omega
  have hsub := (List.sublist_mergeSort htrans htotal hequal List.filter_sublist).filter (key · = k)
  rw [List.filter_filter] at hsub
  simp only [Bool.and_self] at hsub
  exact (hsub.eq_of_length (hperm.filter _).length_eq.symm).symm

/-- The calls of a tree are those of plain recursion, sorted by where their names begin. -/
theorem callsOfTree_eq_plain (source : Bytes) (tree : Node) : callsOfTree source tree = (do
    let plain ← tree.plainCalls source (byteLineStarts source)
    return ⟨Span.ofRange (byteLineStarts source) 0 source.length,
      plain.mergeSort fun a b => a.nameSpan.start ≤ b.nameSpan.start⟩) := by
  rw [callsOfTree, Node.collectCalls_eq_plain, Node.allPlainCalls_singleton]

/-- Inside of the source the walk comes to an end, and its calls are those of plain recursion, sorted by where their
names begin and otherwise in the same order. Plain recursion gives one call for each place where one is written: for
each invocation without error outside of bracketed trees, and for each word with a `!` and a bracketed tree without
error behind it inside of one, also where what is around it has an error. The interpreter's limit on recursion, which a
deeply nested tree can reach, is not part of the model. -/
theorem calls_found_once (source : Bytes) (tree : Node) (h : tree.InRange source.length false) :
    ∃ plain calls places, tree.plainCalls source (byteLineStarts source) = .ok plain ∧
      callsOfTree source tree = .ok ⟨Span.ofRange (byteLineStarts source) 0 source.length, calls⟩ ∧
      StableSort (fun call => call.nameSpan.start) plain calls ∧
      EachOnce (WrittenAt source tree) places ∧
      (places.mapM fun place => place.2.call source (byteLineStarts source)) = .ok plain := by
  obtain ⟨places, honce, hplaces⟩ := tree.yields source
  have hplain : tree.plainCalls source (byteLineStarts source) = _ := h.plainCalls_eq
  refine ⟨_, _, places, hplain, ?_, stableSort_mergeSort _ _, honce, ?_⟩
  · rw [callsOfTree_eq_plain, hplain]
    rfl
  · rw [← hplaces, List.map_map]
    exact mapM_of_forall fun place hplace => ((honce.mem_iff place.1 place.2).mp hplace).call_eq h

/-- The tree of `k!();m!(p::q![r!()],$(s!(t![]))*u!(v!()]))`, where the bracket that closes nothing is an error, with
the statements in the wrong order. -/
def damagedTree : Node :=
  .mk .other 0 42 true true false
    [.mk .macroInvocation 5 42 true true false
      [.mk .identifier 5 6 true false true [],
        .mk .tokenTree 7 42 true true false
          [.mk .identifier 8 9 true false false [], .mk .identifier 11 12 true false false [],
            .mk .tokenTree 13 19 true false false
              [.mk .identifier 14 15 true false false [], .mk .tokenTree 16 18 true false false []],
            .mk .tokenRepetition 20 32 true false false
              [.mk .identifier 22 23 true false false [],
                .mk .tokenTree 24 30 true false false
                  [.mk .identifier 25 26 true false false [], .mk .tokenTree 27 29 true false false []]],
            .mk .identifier 32 33 true false false [],
            .mk .tokenTree 34 41 true true false
              [.mk .identifier 35 36 true false false [], .mk .tokenTree 37 39 true false false [],
                .mk .other 39 40 true true false []]]],
      .mk .macroInvocation 0 4 true false false
        [.mk .identifier 0 1 true false true [], .mk .tokenTree 2 4 true false false []]]

/-- Where the calls of that tree begin and what they are named: those of `m` and `u` have an error and are left out. -/
def damagedCalls : List (Int × String) := [(0, "k"), (8, "p::q"), (14, "r"), (22, "s"), (25, "t"), (35, "v")]

/-- The call that comes first is found last. -/
theorem damaged_calls_found_once :
    let source := Bytes.ofString "k!();m!(p::q![r!()],$(s!(t![]))*u!(v!()]))"
    damagedTree.InRange source.length false ∧
    ∃ plain calls places, damagedTree.plainCalls source (byteLineStarts source) = .ok plain ∧
      callsOfTree source damagedTree = .ok ⟨Span.ofRange (byteLineStarts source) 0 source.length, calls⟩ ∧
      StableSort (fun call => call.nameSpan.start) plain calls ∧
      EachOnce (WrittenAt source damagedTree) places ∧
      (places.mapM fun place => place.2.call source (byteLineStarts source)) = .ok plain ∧
      plain.map (fun call => (call.nameSpan.start, call.name)) = damagedCalls.tail ++ [(0, "k")] ∧
      calls.map (fun call => (call.nameSpan.start, call.name)) = damagedCalls := by
  intro source
  have hlength : source.length = 42 := by decide +kernel
  have hin : damagedTree.InRange source.length false := by
    rw [hlength]
    simp [damagedTree, Node.InRange, Node.AllInRange]
  obtain ⟨plain, calls, places, hplain, hcalls, hsort, honce, hplaces⟩ := calls_found_once source damagedTree hin
  have hfound : plain.map (fun call => (call.nameSpan.start, call.name)) = damagedCalls.tail ++ [(0, "k")] := by
    have hmap : (damagedTree.plainCalls source (byteLineStarts source)).toOption.map
        (List.map fun call => (call.nameSpan.start, call.name)) = some (damagedCalls.tail ++ [(0, "k")]) := by
      decide +kernel
    rw [hplain] at hmap
    exact Option.some.inj hmap
  refine ⟨hin, plain, calls, places, hplain, hcalls, hsort, honce, hplaces, hfound, ?_⟩
  -- no two names begin at the same place, so there is only one order
  have hapart : ∀ a ∈ damagedCalls, ∀ b ∈ damagedCalls, a.1 ≤ b.1 → b.1 ≤ a.1 → a = b := by decide +kernel
  have hperm : (calls.map fun call => (call.nameSpan.start, call.name)).Perm damagedCalls := by
    have hmap := hsort.perm.map fun call => (call.nameSpan.start, call.name)
    rw [hfound] at hmap
    exact hmap.trans (by decide +kernel)
  have hordered : (calls.map fun call => (call.nameSpan.start, call.name)).Pairwise fun a b => a.1 ≤ b.1 :=
    List.pairwise_map.mpr hsort.ascending
  exact hperm.eq_of_pairwise (fun a b ha hb => hapart a (hperm.mem_iff.mp ha) b hb) hordered (by decide +kernel)

end LogRef
