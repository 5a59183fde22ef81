import LogRef.Proofs.Syntax.Forest

/-!
# Places of calls

Where calls are written in a syntax tree, said without a search. Outside of bracketed trees a call is an invocation node
without error; inside of one it is a word, a `!` and a bracketed tree without error that follow each other, at any
depth. A place is the route to it from the root: the positions of children outside of bracketed trees, and those of
tokens inside. The invocations of a tree are those of its places, each once and in the order of the routes.
-/
namespace LogRef

/-- A token of a tree: read from the bytes between the nodes, or one that stands for a node. -/
inductive TreeToken where
  | bare (token : Token)
  | node (n : Node)

def TreeToken.token (source : Bytes) : TreeToken → Token
  | bare t => t
  | node n => n.token source

namespace Node

/-- The tokens from `cursor` to `stop` with their nodes, where `children` are the nodes still ahead. -/
def treeTokensFrom (source : Bytes) (stop : Int) : (cursor : Int) → List Node → List TreeToken
  | cursor, [] => (gapTokens source cursor stop).map .bare
  | cursor, child :: rest =>
    if child.isPassedOver cursor stop then treeTokensFrom source stop cursor rest
    else (gapTokens source cursor child.start).map .bare ++
      ((if child.kind = .comment then [] else [.node child]) ++ treeTokensFrom source stop child.stop rest)

/-- The top-level tokens of a tree with their nodes. -/
def treeTokens (source : Bytes) (n : Node) : List TreeToken :=
  treeTokensFrom source (innerStop source n.kind n.start n.stop) (innerStart source n.kind n.start) n.children

end Node

/-- What a call is made of: its name and where that stands, and its argument tree. -/
structure Written where
  name : String
  nameStart : Int
  nameStop : Int
  arguments : Node

namespace Written

/-- The call of an invocation node with the given name and argument tree. -/
def ofName (source : Bytes) (name arguments : Node) : Written :=
  ⟨String.ofList (Text.squeeze (Utf8.decodeLossy (source.slice name.start name.stop))), name.start, name.stop,
    arguments⟩

/-- The call whose name ends with a word, and begins with the path among the tokens before it, nearest first. -/
def ofWord (before : List Token) (word : Token) (arguments : Node) : Written :=
  let path := (word :: pathBefore before).reverse
  ⟨String.join (path.map fun t => t.text.lossyText), (path.headD word).start, word.stop, arguments⟩

/-- The call with the arguments read. -/
def call (source : Bytes) (lines : List Nat) (w : Written) : Except OutOfSource Call :=
  callWith source lines w.name w.nameStart w.nameStop w.arguments

def invocation (source : Bytes) (w : Written) : Invocation :=
  ⟨w.name, w.nameStart, w.nameStop, w.arguments.start, w.arguments.stop,
    (w.arguments.treeTokens source).map (TreeToken.token source)⟩

end Written

/-- The node is an invocation without error, with a name and an argument tree. -/
inductive Invokes (source : Bytes) (n : Node) : Written → Prop
  | mk {name arguments : Node} (kind : n.kind = .macroInvocation) (noError : n.hasError = false)
      (named : n.children.find? Node.isMacroName = some name)
      (given : n.children.find? (·.kind = .tokenTree) = some arguments) :
      Invokes source n (Written.ofName source name arguments)

/-- The tree is bracketed and without error, and the tokens before it end with a word and a `!`. -/
inductive Completes (source : Bytes) (arguments : Node) : List TreeToken → Written → Prop
  | mk {front : List TreeToken} {word bang : TreeToken} (kind : arguments.kind = .tokenTree)
      (noError : arguments.hasError = false) (isWord : (word.token source).kind = .word)
      (isBang : (bang.token source).isPunct '!' = true) :
      Completes source arguments (front ++ [word, bang])
        (Written.ofWord (front.map (TreeToken.token source)).reverse (word.token source) arguments)

/-- A call is written at a route inside of a tree. The route goes through the trees among the tokens. -/
inductive WrittenInside (source : Bytes) : Node → List Nat → Written → Prop
  | here {n arguments : Node} {front back : List TreeToken} {w : Written}
      (tokens : n.treeTokens source = front ++ .node arguments :: back) (own : Completes source arguments front w) :
      WrittenInside source n [front.length] w
  | deeper {n c : Node} {front back : List TreeToken} {route : List Nat} {w : Written}
      (tokens : n.treeTokens source = front ++ .node c :: back) (tree : c.isTree = true)
      (inside : WrittenInside source c route w) : WrittenInside source n (front.length :: route) w

/-- A call is written at a route at or below a node. Whether the nodes on the way have errors does not matter. -/
inductive WrittenAt (source : Bytes) : Node → List Nat → Written → Prop
  | here {n : Node} {w : Written} (own : Invokes source n w) : WrittenAt source n [] w
  | child {n c : Node} {front back : List Node} {route : List Nat} {w : Written} (kind : n.kind ≠ .tokenTree)
      (children : n.children = front ++ c :: back) (below : WrittenAt source c route w) :
      WrittenAt source n (front.length :: route) w
  | inside {n : Node} {route : List Nat} {w : Written} (kind : n.kind = .tokenTree)
      (inside : WrittenInside source n route w) : WrittenAt source n route w

/-- A list with each place that `P` holds of once, in the order of the routes: what is at a node comes before what is
below it, and what is below a node comes in the order of its children or tokens. -/
structure EachOnce (P : List Nat → Written → Prop) (places : List (List Nat × Written)) : Prop where
  ascending : places.Pairwise fun a b => List.Lex (· < ·) a.1 b.1
  mem_iff : ∀ route w, (route, w) ∈ places ↔ P route w

/-- The invocations are those of the places that `P` holds of, each once and in order. -/
def Yields (source : Bytes) (P : List Nat → Written → Prop) (vs : List Invocation) : Prop :=
  ∃ places, EachOnce P places ∧ places.map (fun place => place.2.invocation source) = vs

section

variable {source : Bytes} {P Q : List Nat → Written → Prop} {us vs : List Invocation}

/-! ## Lists of places -/

namespace Yields

theorem congr (h : Yields source P vs) (hiff : ∀ route w, P route w ↔ Q route w) : Yields source Q vs := by
  obtain ⟨places, honce, rfl⟩ := h
  exact ⟨places, ⟨honce.ascending, fun route w => (honce.mem_iff route w).trans (hiff route w)⟩, rfl⟩

theorem nil (h : ∀ route w, ¬ P route w) : Yields source P [] :=
  ⟨[], ⟨List.Pairwise.nil, fun route w => iff_of_false List.not_mem_nil (h route w)⟩, rfl⟩

theorem single (w : Written) : Yields source (fun route w' => route = [] ∧ w' = w) [w.invocation source] := by
  refine ⟨[([], w)], ⟨List.pairwise_singleton _ _, fun route w' => ?_⟩, rfl⟩
  rw [List.mem_singleton, Prod.mk.injEq]

theorem append (hP : Yields source P us) (hQ : Yields source Q vs)
    (hlt : ∀ {route w route' w'}, P route w → Q route' w' → List.Lex (· < ·) route route') :
    Yields source (fun route w => P route w ∨ Q route w) (us ++ vs) := by
  obtain ⟨places, honce, rfl⟩ := hP
  obtain ⟨places', honce', rfl⟩ := hQ
  refine ⟨places ++ places', ⟨?_, fun route w => ?_⟩, List.map_append⟩
  · refine List.pairwise_append.mpr ⟨honce.ascending, honce'.ascending, ?_⟩
    intro a ha b hb
    exact hlt ((honce.mem_iff a.1 a.2).mp ha) ((honce'.mem_iff b.1 b.2).mp hb)
  · rw [List.mem_append, honce.mem_iff, honce'.mem_iff]

/-- The same places, seen from one step further up. -/
theorem under (h : Yields source P vs) (i : Nat) :
    Yields source (fun route w => ∃ tail, route = i :: tail ∧ P tail w) vs := by
  obtain ⟨places, honce, rfl⟩ := h
  refine ⟨places.map fun place => (i :: place.1, place.2), ⟨?_, fun route w => ?_⟩, List.map_map⟩
  · rw [List.pairwise_map]
    exact honce.ascending.imp List.Lex.cons
  · rw [List.mem_map]
    constructor
    · rintro ⟨⟨tail, w'⟩, hmem, heq⟩
      cases heq
      exact ⟨tail, rfl, (honce.mem_iff tail w').mp hmem⟩
    · rintro ⟨tail, rfl, hw⟩
      exact ⟨(tail, w), (honce.mem_iff tail w).mpr hw, rfl⟩

/-- Element by element: what is found at each element of a list, given those in front of it, is found in the list under
the position of that element. -/
theorem gather {α : Type} {R : List α → α → List Nat → Written → Prop} {f : List α → α → List Invocation}
    {g : List α → List α → List Invocation} (hnil : ∀ front, g front [] = [])
    (hcons : ∀ front x rest, g front (x :: rest) = f front x ++ g (front ++ [x]) rest) {xs : List α}
    (h : ∀ front, ∀ x ∈ xs, Yields source (R front x) (f front x)) (front : List α) :
    Yields source (fun route w => ∃ pre x post tail, xs = pre ++ x :: post ∧
      route = (front.length + pre.length) :: tail ∧ R (front ++ pre) x tail w) (g front xs) := by
  induction xs generalizing front with
  | nil =>
    rw [hnil]
    refine nil fun route w => ?_
    rintro ⟨pre, x, post, tail, hxs, -⟩
    simp at hxs
  | cons x xs ih =>
    rw [hcons]
    have hhead := (h front x List.mem_cons_self).under front.length
    have htail := ih (fun front y hy => h front y (List.mem_cons_of_mem x hy)) (front ++ [x])
    have hlength (pre : List α) : (front ++ [x]).length + pre.length = front.length + (x :: pre).length := by
      rw [List.length_append, List.length_singleton, List.length_cons]
      omega
    refine (hhead.append htail ?_).congr fun route w => ?_
    · rintro _ _ _ _ ⟨_, rfl, _⟩ ⟨pre, _, _, _, _, rfl, _⟩
      refine List.Lex.rel ?_
      rw [hlength, List.length_cons]
      omega
    · constructor
      · rintro (⟨tail, rfl, hw⟩ | ⟨pre, y, post, tail, rfl, rfl, hw⟩)
        · exact ⟨[], x, xs, tail, rfl, rfl, by rwa [List.append_nil]⟩
        · refine ⟨x :: pre, y, post, tail, rfl, by rw [hlength], ?_⟩
          rwa [List.append_assoc, List.singleton_append] at hw
      · rintro ⟨_ | ⟨_, pre⟩, y, post, tail, hxs, rfl, hw⟩
        · cases hxs
          exact .inl ⟨tail, rfl, by rwa [List.append_nil] at hw⟩
        · cases hxs
          refine .inr ⟨pre, y, post, tail, rfl, by rw [hlength], ?_⟩
          rwa [List.append_assoc, List.singleton_append]

end Yields

/-! ## Tokens with their nodes -/

/-- A token with its node, as a part of the forest. -/
def TreeToken.part (source : Bytes) : TreeToken → Part
  | bare t => .leaf t
  | node c =>
    if c.isTree then .tree (c.token source) (c.kind = .tokenTree) c.hasError (c.forest source)
    else .leaf (c.token source)

theorem TreeToken.token_part (x : TreeToken) : (x.part source).token = x.token source := by
  cases x with
  | bare t => rfl
  | node c =>
    rw [part]
    split <;> rfl

namespace Node

variable {n c : Node}

/-- Induction over the children of nodes. -/
theorem ind {motive : Node → Prop} (step : ∀ n : Node, (∀ c ∈ n.children, motive c) → motive n) (n : Node) :
    motive n :=
  match n with
  | mk kind start stop isNamed hasError isMacroName children =>
    step _ fun c (_ : c ∈ children) => ind step c

theorem forestAmong_eq_treeTokens (source : Bytes) (stop cursor : Int) (children : List Node) :
    forestAmong source stop cursor children =
      (treeTokensFrom source stop cursor children).map (TreeToken.part source) := by
  induction children generalizing cursor with
  | nil =>
    rw [forestAmong, treeTokensFrom, List.map_map]
    rfl
  | cons c rest ih =>
    rw [treeTokensFrom]
    cases hp : c.isPassedOver cursor stop with
    | true => rw [forestAmong_of_passed hp, if_pos rfl, ih]
    | false =>
      rw [forestAmong_of_kept hp, if_neg Bool.false_ne_true, List.map_append, List.map_append, List.map_map, ih,
        ownParts]
      congr 2
      split
      · rfl
      · simp only [List.map_cons, List.map_nil, TreeToken.part]
        split <;> rfl

theorem forest_eq_treeTokens (source : Bytes) (n : Node) :
    n.forest source = (n.treeTokens source).map (TreeToken.part source) := by
  rw [forest_eq, treeTokens, forestAmong_eq_treeTokens]

theorem mem_of_mem_treeTokensFrom {stop cursor : Int} {children : List Node}
    (h : .node c ∈ treeTokensFrom source stop cursor children) : c ∈ children := by
  induction children generalizing cursor with
  | nil => simp [treeTokensFrom] at h
  | cons d rest ih =>
    rw [treeTokensFrom] at h
    split at h
    · exact List.mem_cons_of_mem d (ih h)
    · rw [List.mem_append, List.mem_append] at h
      rcases h with h | h | h
      · simp at h
      · split at h
        · cases h
        · cases List.mem_singleton.mp h
          exact List.mem_cons_self
      · exact List.mem_cons_of_mem d (ih h)

theorem mem_children_of_treeTokens {front back : List TreeToken} (h : n.treeTokens source = front ++ .node c :: back) :
    c ∈ n.children := by
  have hmem : .node c ∈ n.treeTokens source := by
    rw [h]
    exact List.mem_append_right front List.mem_cons_self
  exact mem_of_mem_treeTokensFrom hmem

theorem map_token_forest (source : Bytes) (n : Node) :
    (n.forest source).map Part.token = (n.treeTokens source).map (TreeToken.token source) := by
  rw [forest_eq_treeTokens, List.map_map]
  exact List.map_congr_left fun x _ => x.token_part

/-- Inside of the source the tokens of a tree are those with their nodes. -/
theorem InRange.tokens_eq_treeTokens {inTree : Bool} (h : n.InRange source.length inTree) (ht : n.isTree = true) :
    n.tokens source = .ok ((n.treeTokens source).map (TreeToken.token source)) := by
  have hforward := (h.children (isOpened_of_isTree ht)).forward
  rw [Node.tokens_eq h.bounds.1 h.bounds.2.2 hforward, map_token_forest]

end Node

/-! ## The places of the invocations -/

theorem Invokes.yields (source : Bytes) (n : Node) :
    Yields source (fun route w => route = [] ∧ Invokes source n w) (n.ownInvocations source) := by
  unfold Node.ownInvocations
  split
  · next name arguments hname hgiven =>
    split
    · next h =>
      rw [Node.map_token_forest]
      refine (Yields.single (Written.ofName source name arguments)).congr fun route w => and_congr_right fun _ => ?_
      constructor
      · rintro rfl
        exact .mk h.1 h.2 hname hgiven
      · rintro ⟨-, -, hname', hgiven'⟩
        cases hname.symm.trans hname'
        cases hgiven.symm.trans hgiven'
        rfl
    · next h =>
      refine Yields.nil fun route w => ?_
      rintro ⟨-, ⟨hk, he, -, -⟩⟩
      exact h ⟨hk, he⟩
  · next hnone =>
    refine Yields.nil fun route w => ?_
    rintro ⟨-, ⟨-, -, hname, hgiven⟩⟩
    exact hnone _ _ hname hgiven

theorem Completes.two_le {arguments : Node} {front : List TreeToken} {w : Written}
    (h : Completes source arguments front w) : 2 ≤ front.length := by
  cases h
  simp

theorem completes_append_iff {arguments : Node} {front : List TreeToken} {word bang : TreeToken} {w : Written} :
    Completes source arguments (front ++ [word, bang]) w ↔ arguments.kind = .tokenTree ∧
      (bang.token source).isPunct '!' = true ∧ (word.token source).kind = .word ∧ arguments.hasError = false ∧
      w = Written.ofWord (front.map (TreeToken.token source)).reverse (word.token source) arguments := by
  constructor
  · generalize hall : front ++ [word, bang] = all
    rintro ⟨hk, he, hword, hbang⟩
    obtain ⟨rfl, hlast⟩ := List.append_inj' hall rfl
    cases hlast
    exact ⟨hk, hbang, hword, he, rfl⟩
  · rintro ⟨hk, hbang, hword, he, rfl⟩
    exact .mk hk he hword hbang

/-- The invocation that a bracketed tree completes. -/
theorem Completes.yields (source : Bytes) (arguments : Node) (front : List TreeToken) :
    Yields source (fun route w => route = [] ∧ Completes source arguments front w)
      (invocationBefore (front.map (TreeToken.token source)).reverse (arguments.token source)
        (arguments.kind = .tokenTree) arguments.hasError ((arguments.forest source).map Part.token)) := by
  -- the tokens are read from the last one, so the cases are those of the reversed list
  rw [← List.map_reverse]
  obtain ⟨back, rfl⟩ : ∃ back, front = back.reverse := ⟨front.reverse, front.reverse_reverse.symm⟩
  rw [List.reverse_reverse]
  match back with
  | [] | [_] =>
    refine Yields.nil fun route w => ?_
    rintro ⟨-, h⟩
    exact absurd h.two_le (by simp)
  | bang :: word :: rest =>
    have hback : (bang :: word :: rest).reverse = rest.reverse ++ [word, bang] := by simp
    rw [hback, List.map_cons, List.map_cons, invocationBefore]
    simp only [completes_append_iff, Bool.and_eq_true, decide_eq_true_eq, Bool.not_eq_true', and_assoc]
    split
    · next h =>
      rw [Node.map_token_forest]
      refine (Yields.single (Written.ofWord _ _ arguments)).congr fun route w => ?_
      simp only [h, List.map_reverse, List.reverse_reverse, true_and]
    · next h =>
      refine Yields.nil fun route w => ?_
      rintro ⟨-, hk, hbang, hword, he, -⟩
      exact h ⟨hk, hbang, hword, he⟩

theorem WrittenInside.exists_cons {n : Node} {route : List Nat} {w : Written} (h : WrittenInside source n route w) :
    ∃ i tail, route = i :: tail := by
  cases h with
  | here => exact ⟨_, _, rfl⟩
  | deeper => exact ⟨_, _, rfl⟩

/-- A call is written at a token of a tree or inside of it, given the tokens in front of it. -/
def WrittenFrom (source : Bytes) (front : List TreeToken) : TreeToken → List Nat → Written → Prop
  | .bare _, _, _ => False
  | .node c, tail, w => tail = [] ∧ Completes source c front w ∨ c.isTree = true ∧ WrittenInside source c tail w

theorem writtenInside_iff {n : Node} {route : List Nat} {w : Written} : WrittenInside source n route w ↔
    ∃ pre x post tail, n.treeTokens source = pre ++ x :: post ∧ route = pre.length :: tail ∧
      WrittenFrom source pre x tail w := by
  constructor
  · intro h
    cases h with
    | here htokens own => exact ⟨_, _, _, [], htokens, rfl, .inl ⟨rfl, own⟩⟩
    | deeper htokens htree inside => exact ⟨_, _, _, _, htokens, rfl, .inr ⟨htree, inside⟩⟩
  · rintro ⟨pre, x, post, tail, htokens, rfl, hw⟩
    cases x with
    | bare t => cases hw
    | node c =>
      rcases hw with ⟨rfl, own⟩ | ⟨htree, inside⟩
      · exact .here htokens own
      · exact .deeper htokens htree inside

theorem TreeToken.yields {front : List TreeToken} {x : TreeToken}
    (h : ∀ c, x = .node c → Yields source (WrittenInside source c) (invocationsAmong [] (c.forest source))) :
    Yields source (WrittenFrom source front x)
      ((x.part source).invocations (front.map (TreeToken.token source)).reverse) := by
  cases x with
  | bare t => exact Yields.nil fun _ _ hw => hw
  | node c =>
    rw [part]
    split
    · next htree =>
      rw [Part.invocations]
      -- what the tree completes is at the token, the rest further down
      refine ((Completes.yields source c front).append (h c rfl) ?_).congr fun tail w => ?_
      · rintro _ _ _ _ ⟨rfl, -⟩ hw
        obtain ⟨i, tail, rfl⟩ := hw.exists_cons
        exact List.Lex.nil
      · simp only [WrittenFrom, htree, true_and]
    · next htree =>
      refine Yields.nil fun tail w => ?_
      rintro (⟨-, ⟨hk⟩⟩ | ⟨htree', -⟩)
      · exact htree (Node.isTree_of_tokenTree hk)
      · exact htree htree'

namespace Node

/-- The invocations inside of a tree are those of the places inside of it. -/
theorem yields_inside (source : Bytes) (n : Node) :
    Yields source (WrittenInside source n) (invocationsAmong [] (n.forest source)) := by
  induction n using ind with
  | step n ih =>
    -- the tokens in front of each tree are carried along, since a call begins with them
    have heach : ∀ front, ∀ x ∈ n.treeTokens source, Yields source (WrittenFrom source front x)
        ((x.part source).invocations (front.map (TreeToken.token source)).reverse) := by
      intro front x hx
      refine TreeToken.yields fun c hc => ih c ?_
      rw [hc] at hx
      exact mem_of_mem_treeTokensFrom hx
    have hall := Yields.gather
      (g := fun front xs => invocationsAmong (front.map (TreeToken.token source)).reverse
        (xs.map (TreeToken.part source)))
      (fun _ => rfl) (fun front x rest => ?_) heach []
    · rw [forest_eq_treeTokens]
      refine hall.congr fun route w => ?_
      rw [writtenInside_iff]
      simp only [List.length_nil, Nat.zero_add, List.nil_append]
    · rw [List.map_cons, invocationsAmong, TreeToken.token_part, List.map_append, List.reverse_append]
      rfl

/-- The invocations at and below a node are those of the places there. -/
theorem yields (source : Bytes) (n : Node) : Yields source (WrittenAt source n) (n.invocations source) := by
  induction n using ind with
  | step n ih =>
    by_cases hk : n.kind = .tokenTree
    · rw [invocations_of_tokenTree hk]
      refine (yields_inside source n).congr fun route w => ⟨.inside hk, fun h => ?_⟩
      cases h with
      | here own =>
        cases own with
        | mk hkind => rw [hk] at hkind; cases hkind
      | child hne => exact absurd hk hne
      | inside _ inside => exact inside
    · rw [invocations_of_ne_tokenTree hk]
      have hall := Yields.gather (f := fun _ c => c.invocations source) (g := fun _ cs => allInvocations source cs)
        (fun _ => rfl) (fun _ _ _ => rfl) (fun _ c hc => ih c hc) []
      refine ((Invokes.yields source n).append hall ?_).congr fun route w => ?_
      · rintro _ _ _ _ ⟨rfl, -⟩ ⟨_, _, _, _, _, rfl, _⟩
        exact List.Lex.nil
      · constructor
        · rintro (⟨rfl, own⟩ | ⟨pre, c, post, tail, hchildren, rfl, hw⟩)
          · exact .here own
          · rw [List.length_nil, Nat.zero_add]
            exact .child hk hchildren hw
        · intro h
          cases h with
          | here own => exact .inl ⟨rfl, own⟩
          | child _ hchildren hw => exact .inr ⟨_, _, _, _, hchildren, by rw [List.length_nil, Nat.zero_add], hw⟩
          | inside hkind => exact absurd hkind hk

end Node

/-! ## Places inside of the source -/

section

variable {lines : List Nat} {n : Node} {route : List Nat} {w : Written}

theorem Written.call_eq {inTree : Bool} (h : w.arguments.InRange source.length inTree)
    (hk : w.arguments.kind = .tokenTree) :
    w.call source lines = .ok (Invocation.call source lines (w.invocation source)) :=
  callWith_eq (h.tokens_eq_treeTokens (Node.isTree_of_tokenTree hk)) w.name w.nameStart w.nameStop

theorem WrittenInside.call_eq (h : WrittenInside source n route w)
    (hin : Node.AllInRange source.length true n.children) :
    w.call source lines = .ok (Invocation.call source lines (w.invocation source)) := by
  induction h with
  | here htokens own =>
    have hc := hin.mem (Node.mem_children_of_treeTokens htokens)
    cases own with
    | mk hk => exact Written.call_eq hc hk
  | deeper htokens htree _ ih =>
    have hc := hin.mem (Node.mem_children_of_treeTokens htokens)
    exact ih (hc.inside htree (.inl rfl))

/-- Where all nodes are in range, the arguments of each place can be read. -/
theorem WrittenAt.call_eq (h : WrittenAt source n route w) (hin : n.InRange source.length false) :
    w.call source lines = .ok (Invocation.call source lines (w.invocation source)) := by
  induction h with
  | here own =>
    cases own with
    | @mk name arguments _ _ _ hgiven =>
      have hc := (hin.children rfl).mem (List.mem_of_find?_eq_some hgiven)
      have hk : arguments.kind = .tokenTree := by simpa using List.find?_some hgiven
      exact Written.call_eq hc hk
  | child hk hchildren _ ih =>
    refine ih ?_
    have hc := hin.children rfl
    rw [decide_eq_false hk, Bool.or_false, hchildren] at hc
    exact hc.mem (List.mem_append_right _ List.mem_cons_self)
  | inside hk hw => exact hw.call_eq (hin.inside (Node.isTree_of_tokenTree hk) (.inr hk))

end

end

end LogRef
