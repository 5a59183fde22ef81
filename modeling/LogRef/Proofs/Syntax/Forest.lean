import LogRef.Syntax.Call

/-!
# Token forests

What the calls of a syntax tree depend on: for a bracketed tree its tokens, with the tokens of the trees
among them, and for the nodes outside of bracketed trees the invocations below them. Where no range goes
backwards or leaves the source, the calls are those of the invocations, and finding them does not fail.
-/
namespace LogRef

/-- A token of a tree. One that is a tree itself comes with its own tokens. -/
inductive Part where
  | leaf (token : Token)
  | tree (token : Token) (isBracketed hasError : Bool) (inside : List Part)

namespace Part

def token : Part → Token
  | leaf t => t
  | tree t _ _ _ => t

mutual

/-- Induction over the tokens inside of tokens. -/
theorem ind {motive : Part → Prop} (leaf : ∀ t, motive (.leaf t))
    (tree : ∀ t isBracketed hasError inside, (∀ y ∈ inside, motive y) →
      motive (.tree t isBracketed hasError inside)) (x : Part) : motive x := by
  match x with
  | .leaf t => exact leaf t
  | .tree t isBracketed hasError inside =>
    exact tree t isBracketed hasError inside (indAll leaf tree inside)

theorem indAll {motive : Part → Prop} (leaf : ∀ t, motive (.leaf t))
    (tree : ∀ t isBracketed hasError inside, (∀ y ∈ inside, motive y) →
      motive (.tree t isBracketed hasError inside)) (xs : List Part) : ∀ y ∈ xs, motive y := by
  match xs with
  | [] => exact fun y hy => by cases hy
  | x :: xs =>
    intro y hy
    rcases List.mem_cons.mp hy with h | hy
    · exact h ▸ ind leaf tree x
    · exact indAll leaf tree xs y hy

end

end Part

/-- The tokens of the source between two positions. -/
def gapTokens (source : Bytes) (start stop : Int) : List Token :=
  (piecesOf start (bytesBetween source start stop)).map (Piece.token source)

/-- A call whose arguments are not read yet: its name, its argument tree and the tokens of that. -/
structure Invocation where
  name : String
  nameStart : Int
  nameStop : Int
  start : Int
  stop : Int
  tokens : List Token

/-- The call with the arguments read. -/
def Invocation.call (source : Bytes) (lines : List Nat) (v : Invocation) : Call :=
  let segments := segmentsOf v.tokens
  let target := targetSpan lines segments
  let arguments := if target.isSome then segments.drop 1 else segments
  let insertAt := match target with
    | none => v.start + 1
    | some t => ((arguments.head?.bind fun s => s.tokens.head?).map Token.start).getD t.stop
  let (keyed, rest) := (splitAtSemicolon arguments).getD ([], arguments)
  { name := v.name
    nameSpan := Span.ofRange lines v.nameStart v.nameStop
    argumentsSpan := Span.ofRange lines v.start v.stop
    target
    keyValues := keyed.filterMap (Segment.keyValue source lines)
    insertAt := Span.ofRange lines insertAt insertAt
    message := messageOf source lines rest }

/-- How many tokens stand before a new argument: those of a leading target and its comma. -/
def argumentIndex (tokens : List Token) : Nat :=
  match segmentsOf tokens with
  | s :: _ => if s.isTarget then s.tokens.length + 1 else 0
  | [] => 0

/-- Where a new argument goes in a bracketed tree that begins at `start`: behind the bracket, or before the
token that follows a target. -/
def argumentPlace (start : Int) (tokens : List Token) : Option Int :=
  (tokens[argumentIndex tokens]?).map fun t =>
    if argumentIndex tokens = 0 then start + 1 else t.start

/-- The invocation that a bracketed tree completes, given the tokens before it, nearest first. -/
def invocationBefore (before : List Token) (tree : Token) (isBracketed hasError : Bool)
    (tokens : List Token) : List Invocation :=
  match before with
  | bang :: last :: more =>
    if isBracketed && bang.isPunct '!' && last.kind = .word && !hasError then
      let path := (last :: pathBefore more).reverse
      [⟨String.join (path.map fun t => t.text.lossyText), (path.headD last).start, last.stop,
        tree.start, tree.stop, tokens⟩]
    else []
  | _ => []

mutual

/-- The invocations at and inside a token, given the tokens before it, nearest first. -/
def Part.invocations : (before : List Token) → Part → List Invocation
  | _, .leaf _ => []
  | before, .tree t isBracketed hasError inside =>
    invocationBefore before t isBracketed hasError (inside.map Part.token) ++
      invocationsAmong [] inside

/-- The invocations of the tokens still ahead. -/
def invocationsAmong : (before : List Token) → List Part → List Invocation
  | _, [] => []
  | before, p :: rest => p.invocations before ++ invocationsAmong (p.token :: before) rest

end

namespace Node

mutual

/-- The tokens of a tree, those of the trees among them included. -/
def forest (source : Bytes) : Node → List Part
  | mk kind start stop _ _ _ children =>
    forestAmong source (innerStop source kind start stop) (innerStart source kind start) children

/-- The tokens from `cursor` to `stop`, where `children` are the nodes still ahead. -/
def forestAmong (source : Bytes) (stop : Int) : (cursor : Int) → List Node → List Part
  | cursor, [] => (gapTokens source cursor stop).map .leaf
  | cursor, child :: rest =>
    if child.isPassedOver cursor stop then forestAmong source stop cursor rest
    else (gapTokens source cursor child.start).map .leaf ++
      ((if child.kind = .comment then []
        else if child.isTree then
          [.tree (child.token source) (child.kind = .tokenTree) child.hasError (child.forest source)]
        else [.leaf (child.token source)]) ++ forestAmong source stop child.stop rest)

end

/-- What a child contributes to the tokens of its parent; a comment nothing. -/
def ownParts (source : Bytes) (n : Node) : List Part :=
  if n.kind = .comment then []
  else if n.isTree then
    [.tree (n.token source) (n.kind = .tokenTree) n.hasError (n.forest source)]
  else [.leaf (n.token source)]

/-- The invocation that a node is: it has no error, a name and an argument tree. -/
def ownInvocations (source : Bytes) (n : Node) : List Invocation :=
  match n.children.find? Node.isMacroName, n.children.find? (·.kind = .tokenTree) with
  | some name, some tree =>
    if n.kind = .macroInvocation ∧ n.hasError = false then
      [⟨String.ofList (Text.squeeze (Utf8.decodeLossy (source.slice name.start name.stop))),
        name.start, name.stop, tree.start, tree.stop, (tree.forest source).map Part.token⟩]
    else []
  | _, _ => []

mutual

/-- The invocations at and below a node, outermost first. -/
def invocations (source : Bytes) : Node → List Invocation
  | mk kind start stop isNamed hasError isMacroName children =>
    if kind = .tokenTree then
      invocationsAmong [] (forest source (mk kind start stop isNamed hasError isMacroName children))
    else ownInvocations source (mk kind start stop isNamed hasError isMacroName children) ++
      allInvocations source children

def allInvocations (source : Bytes) : List Node → List Invocation
  | [] => []
  | n :: rest => n.invocations source ++ allInvocations source rest

end

/-- Whether the children of a node are looked at: inside of a bracketed tree, only those of trees. -/
def isOpened (inTree : Bool) (n : Node) : Bool := !inTree || n.isTree

mutual

/-- Every node that is looked at covers a range of a source of the given length. -/
def InRange (length : Nat) : (inTree : Bool) → Node → Prop
  | inTree, mk kind start stop isNamed hasError isMacroName children =>
    (0 ≤ start ∧ start ≤ stop ∧ stop ≤ length) ∧
      (isOpened inTree (mk kind start stop isNamed hasError isMacroName children) →
        AllInRange length (inTree || kind = .tokenTree) children)

def AllInRange (length : Nat) : (inTree : Bool) → List Node → Prop
  | _, [] => True
  | inTree, n :: rest => n.InRange length inTree ∧ AllInRange length inTree rest

end

/-- No node that can be a token goes backwards. -/
def Forward (ns : List Node) : Prop := ∀ c ∈ ns, c.isNamed = true → c.start ≤ c.stop

end Node

section

variable {source : Bytes} {lines : List Nat}

theorem tokensBetween_eq {start stop : Int} (h0 : 0 ≤ start) (h1 : stop ≤ source.length) :
    tokensBetween source start stop = .ok (gapTokens source start stop) := by
  unfold tokensBetween gapTokens
  rw [if_neg (by omega)]

theorem map_token_leaf (ts : List Token) : (ts.map Part.leaf).map Part.token = ts := by
  rw [List.map_map]
  exact List.map_id'' (fun _ => rfl) ts

/-- Tokens that are no trees are only passed on the way. -/
theorem invocationsAmong_leaves (before ts : List Token) (rest : List Part) :
    invocationsAmong before (ts.map .leaf ++ rest) = invocationsAmong (ts.reverse ++ before) rest := by
  induction ts generalizing before with
  | nil => rfl
  | cons t ts ih =>
    rw [List.map_cons, List.cons_append, invocationsAmong, Part.invocations, List.nil_append, ih,
      List.reverse_cons, List.append_assoc]
    rfl

theorem callWith_eq {tree : Node} {tokens : List Token} (h : tree.tokens source = .ok tokens)
    (name : String) (nameStart nameStop : Int) :
    callWith source lines name nameStart nameStop tree =
      .ok (Invocation.call source lines ⟨name, nameStart, nameStop, tree.start, tree.stop, tokens⟩) := by
  unfold callWith
  rw [h]
  rfl

theorem callBefore_eq {tree : Node} {tokens : List Token} (h : tree.tokens source = .ok tokens)
    (before : List Token) :
    callBefore source lines before tree =
      .ok ((invocationBefore before (tree.token source) (tree.kind = .tokenTree) tree.hasError
        tokens).map (Invocation.call source lines)) := by
  match before with
  | [] | [_] => rfl
  | bang :: last :: more =>
    simp only [callBefore, invocationBefore, callWith_eq h]
    split <;> rfl

namespace Node

variable {n c : Node} {length : Nat}

/-- A child is looked at if it is named and not empty and lies in the stretch. -/
theorem isPassedOver_eq_false_iff {cursor stop : Int} : c.isPassedOver cursor stop = false ↔
    c.isNamed = true ∧ c.start ≠ c.stop ∧ cursor ≤ c.start ∧ c.stop ≤ stop := by
  simp only [isPassedOver, Bool.or_eq_false_iff, Bool.not_eq_false', beq_eq_false_iff_ne, decide_eq_false_iff_not,
    Int.not_lt, and_assoc]

theorem InRange.bounds {inTree : Bool} (h : n.InRange length inTree) :
    0 ≤ n.start ∧ n.start ≤ n.stop ∧ n.stop ≤ length := by
  cases n
  rw [InRange] at h
  exact h.1

theorem InRange.children {inTree : Bool} (h : n.InRange length inTree)
    (ho : n.isOpened inTree = true) :
    AllInRange length (inTree || n.kind = .tokenTree) n.children := by
  cases n
  rw [InRange] at h
  exact h.2 ho

theorem AllInRange.mem {inTree : Bool} {ns : List Node} (h : AllInRange length inTree ns)
    (hc : c ∈ ns) : c.InRange length inTree := by
  induction ns with
  | nil => cases hc
  | cons d ns ih =>
    rw [AllInRange] at h
    rcases List.mem_cons.mp hc with rfl | hc
    · exact h.1
    · exact ih h.2 hc

theorem AllInRange.forward {inTree : Bool} {ns : List Node} (h : AllInRange length inTree ns) : Forward ns :=
  fun _ hc _ => (h.mem hc).bounds.2.1

theorem allInRange_append {inTree : Bool} {a b : List Node} :
    AllInRange length inTree (a ++ b) ↔ AllInRange length inTree a ∧ AllInRange length inTree b := by
  induction a with
  | nil => simp [AllInRange]
  | cons n a ih => simp [AllInRange, ih, and_assoc]

theorem isOpened_of_isTree {inTree : Bool} (h : n.isTree = true) : n.isOpened inTree = true := by
  rw [isOpened, h, Bool.or_true]

/-- The children of a tree are looked at wherever it is. -/
theorem InRange.inside {inTree : Bool} (h : n.InRange length inTree) (ht : n.isTree = true)
    (hk : inTree = true ∨ n.kind = .tokenTree) : AllInRange length true n.children := by
  have hc := h.children (isOpened_of_isTree ht)
  rcases hk with rfl | hk
  · rwa [Bool.true_or] at hc
  · rwa [hk, decide_eq_true rfl, Bool.or_true] at hc

theorem innerStart_cases (source : Bytes) (kind : Kind) (start : Int) :
    innerStart source kind start = start ∨ innerStart source kind start = start + 1 := by
  unfold innerStart
  split
  · exact Or.inr rfl
  · exact Or.inl rfl

theorem innerStop_cases (source : Bytes) (kind : Kind) (start stop : Int) :
    innerStop source kind start stop = stop ∨ innerStop source kind start stop = stop - 1 := by
  unfold innerStop
  split
  · exact Or.inr rfl
  · exact Or.inl rfl

theorem forest_eq (source : Bytes) (n : Node) : n.forest source =
    forestAmong source (innerStop source n.kind n.start n.stop) (innerStart source n.kind n.start)
      n.children := by
  cases n
  rw [forest]
  rfl

theorem forestAmong_of_passed {stop cursor : Int} {rest : List Node}
    (h : c.isPassedOver cursor stop = true) :
    forestAmong source stop cursor (c :: rest) = forestAmong source stop cursor rest := by
  rw [forestAmong, if_pos h]

theorem forestAmong_of_kept {stop cursor : Int} {rest : List Node}
    (h : c.isPassedOver cursor stop = false) :
    forestAmong source stop cursor (c :: rest) = (gapTokens source cursor c.start).map .leaf ++
      (c.ownParts source ++ forestAmong source stop c.stop rest) := by
  rw [forestAmong, if_neg (Bool.eq_false_iff.mp h)]
  rfl

/-- Inside of the source the tokens are those of the forest, and reading them does not fail. -/
theorem tokensFrom_eq {stop cursor : Int} {children : List Node} (h0 : 0 ≤ cursor)
    (h1 : stop ≤ source.length) (hforward : Forward children) :
    tokensFrom source stop cursor children =
      .ok ((forestAmong source stop cursor children).map Part.token) := by
  induction children generalizing cursor with
  | nil => rw [tokensFrom, forestAmong, map_token_leaf, tokensBetween_eq h0 h1]
  | cons c rest ih =>
    have hrest : Forward rest := fun d hd => hforward d (List.mem_cons_of_mem c hd)
    rw [tokensFrom]
    cases hp : c.isPassedOver cursor stop with
    | true => rw [forestAmong_of_passed hp, if_pos rfl, ih h0 hrest]
    | false =>
      obtain ⟨hnamed, _, hcur, hstop⟩ := isPassedOver_eq_false_iff.mp hp
      have hc := hforward c List.mem_cons_self hnamed
      rw [forestAmong_of_kept hp, if_neg Bool.false_ne_true, tokensBetween_eq h0 (by omega),
        ih (by omega) hrest]
      simp only [bind, Except.bind, pure, Except.pure, List.map_append, map_token_leaf, ownParts]
      split
      · rfl
      · split <;> rfl

theorem tokens_eq (h0 : 0 ≤ n.start) (h1 : n.stop ≤ source.length) (hforward : Forward n.children) :
    n.tokens source = .ok ((n.forest source).map Part.token) := by
  cases n with
  | mk kind start stop isNamed hasError isMacroName children =>
    have hs := innerStart_cases source kind start
    have he := innerStop_cases source kind start stop
    simp only [Node.start, Node.stop, Node.children] at h0 h1 hforward
    rw [forest, tokens]
    simp only [Node.kind, Node.start, Node.stop, Node.children]
    exact tokensFrom_eq (by omega) (by omega) hforward

mutual

theorem nestedCalls_eq (n : Node) (h0 : 0 ≤ n.start) (h1 : n.stop ≤ source.length)
    (hin : AllInRange source.length true n.children) :
    nestedCalls source lines n =
      .ok ((invocationsAmong [] (n.forest source)).map (Invocation.call source lines)) := by
  match n with
  | mk kind start stop isNamed hasError isMacroName children =>
    have hs := innerStart_cases source kind start
    have he := innerStop_cases source kind start stop
    simp only [Node.start, Node.stop, Node.children] at h0 h1 hin
    rw [nestedCalls, forest]
    exact nestedAmong_eq children [] (by omega) (by omega) hin

theorem nestedAmong_eq (children : List Node) (before : List Token) {stop cursor : Int}
    (h0 : 0 ≤ cursor) (h1 : stop ≤ source.length) (hin : AllInRange source.length true children) :
    nestedAmong source lines stop before cursor children =
      .ok ((invocationsAmong before (forestAmong source stop cursor children)).map
        (Invocation.call source lines)) := by
  match children with
  | [] =>
    have hl := invocationsAmong_leaves before (gapTokens source cursor stop) []
    rw [List.append_nil] at hl
    rw [nestedAmong, forestAmong, tokensBetween_eq h0 h1, hl]
    rfl
  | c :: rest =>
    rw [AllInRange] at hin
    rw [nestedAmong]
    cases hp : c.isPassedOver cursor stop with
    | true => rw [forestAmong_of_passed hp, if_pos rfl, nestedAmong_eq rest before h0 h1 hin.2]
    | false =>
      obtain ⟨_, _, hcur, hstop⟩ := isPassedOver_eq_false_iff.mp hp
      have hc := hin.1.bounds
      have hrest (b : List Token) : nestedAmong source lines stop b c.stop rest =
          .ok ((invocationsAmong b (forestAmong source stop c.stop rest)).map
            (Invocation.call source lines)) := nestedAmong_eq rest b (by omega) h1 hin.2
      rw [forestAmong_of_kept hp, if_neg Bool.false_ne_true, tokensBetween_eq h0 (by omega),
        invocationsAmong_leaves]
      simp only [bind, Except.bind, ownParts]
      by_cases hcomment : c.kind = .comment
      · rw [if_pos hcomment, if_pos hcomment, hrest, List.nil_append]
      · rw [if_neg hcomment, if_neg hcomment]
        cases htree : c.isTree with
        | false =>
          simp only [Bool.false_eq_true, if_false, hrest]
          rfl
        | true =>
          have hchildren := hin.1.inside htree (Or.inl rfl)
          have htokens : c.tokens source = .ok ((c.forest source).map Part.token) :=
            tokens_eq (by omega) (by omega) hchildren.forward
          simp only [if_true, List.singleton_append, invocationsAmong, Part.invocations,
            List.map_append, hrest, nestedCalls_eq c (by omega) (by omega) hchildren,
            callBefore_eq htokens]
          rfl

end

theorem invocations_of_tokenTree (h : n.kind = .tokenTree) :
    n.invocations source = invocationsAmong [] (n.forest source) := by
  cases n
  rw [invocations]
  exact if_pos h

theorem invocations_of_ne_tokenTree (h : n.kind ≠ .tokenTree) :
    n.invocations source = n.ownInvocations source ++ allInvocations source n.children := by
  cases n
  rw [invocations]
  exact if_neg h

theorem allInvocations_append (a b : List Node) :
    allInvocations source (a ++ b) = allInvocations source a ++ allInvocations source b := by
  induction a with
  | nil => rfl
  | cons n a ih => rw [List.cons_append, allInvocations, allInvocations, ih, List.append_assoc]

theorem isTree_of_tokenTree (h : n.kind = .tokenTree) : n.isTree = true := by
  rw [isTree, decide_eq_true h, Bool.true_or]

theorem InRange.tokens_eq {inTree : Bool} (h : n.InRange source.length inTree)
    (hk : n.kind = .tokenTree) : n.tokens source = .ok ((n.forest source).map Part.token) :=
  Node.tokens_eq h.bounds.1 h.bounds.2.2 (h.inside (isTree_of_tokenTree hk) (Or.inr hk)).forward

theorem callOfInvocation_eq (h : n.InRange source.length false) (hk : n.kind = .macroInvocation) :
    callOfInvocation source lines n =
      .ok ((n.ownInvocations source).map (Invocation.call source lines)) := by
  unfold callOfInvocation ownInvocations
  cases hname : n.children.find? Node.isMacroName with
  | none => rfl
  | some name =>
    cases htree : n.children.find? (·.kind = .tokenTree) with
    | none => rfl
    | some tree =>
      have hin : tree.InRange source.length false := by
        have hc := (h.children rfl).mem (List.mem_of_find?_eq_some htree)
        rwa [hk] at hc
      have hkind : tree.kind = .tokenTree := by simpa using List.find?_some htree
      simp only [callWith_eq (hin.tokens_eq hkind), hk, true_and]
      cases n.hasError <;> rfl

/-- What a node contributes by itself. -/
theorem ownCalls_eq (h : n.InRange source.length false) :
    ownCalls source lines n = .ok (((if n.kind = .tokenTree then invocationsAmong [] (n.forest source)
      else n.ownInvocations source)).map (Invocation.call source lines)) := by
  unfold ownCalls
  split
  · next hk =>
    rw [if_pos hk]
    exact nestedCalls_eq n h.bounds.1 h.bounds.2.2 (h.inside (isTree_of_tokenTree hk) (Or.inr hk))
  · next hk => rw [callOfInvocation_eq h hk, if_neg (by rw [hk]; decide)]
  · next hk hm =>
    have hown : n.ownInvocations source = [] := by
      unfold ownInvocations
      split
      · exact if_neg fun h => hm h.1
      · rfl
    rw [if_neg hk, hown]
    rfl

/-- Where all nodes are in range, the calls are those of the invocations. -/
theorem collectCalls_eq (stack : List Node) (h : AllInRange source.length false stack) :
    collectCalls source lines stack =
      .ok ((allInvocations source stack).map (Invocation.call source lines)) := by
  fun_induction collectCalls source lines stack with
  | case1 => rfl
  | case2 n stack ih =>
    rw [AllInRange] at h
    rw [ownCalls_eq h.1]
    simp only [bind, Except.bind, allInvocations, List.map_append]
    by_cases hk : n.kind = .tokenTree
    · rw [nextNodes, if_pos hk, List.nil_append] at ih ⊢
      rw [ih h.2, if_pos hk, invocations_of_tokenTree hk]
      rfl
    · rw [nextNodes, if_neg hk] at ih ⊢
      have hc := h.1.children rfl
      rw [decide_eq_false hk, Bool.or_false] at hc
      rw [ih (allInRange_append.mpr ⟨hc, h.2⟩), if_neg hk, invocations_of_ne_tokenTree hk,
        allInvocations_append]
      simp only [List.map_append, List.append_assoc]
      rfl

end Node

/-- The calls of a tree in range, in source order. -/
theorem callsOfTree_eq {tree : Node} (h : tree.InRange source.length false) :
    callsOfTree source tree = .ok ⟨Span.ofRange (byteLineStarts source) 0 source.length,
      (((tree.invocations source).mergeSort fun a b => a.nameStart ≤ b.nameStart).map
        (Invocation.call source (byteLineStarts source)))⟩ := by
  have hall : Node.AllInRange source.length false [tree] := by
    rw [Node.AllInRange, Node.AllInRange]
    exact ⟨h, trivial⟩
  simp only [callsOfTree, Node.collectCalls_eq [tree] hall, bind, Except.bind, Node.allInvocations,
    List.append_nil]
  rw [List.map_mergeSort]
  · rfl
  · intro a _ b _
    rfl

end

end LogRef
