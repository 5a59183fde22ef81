import LogRef.Proofs.Syntax.GrownCalls
import LogRef.Proofs.Syntax.MacroPath
import LogRef.Rust.Tree

/-!
# The names of calls

A call is named after its path, as a node of its own and among the tokens of a bracketed tree. The two names are the
same if and only if the path is plain.
-/
namespace LogRef

namespace Node

/-- A node is a tree itself or below it, with no bracketed tree in between. -/
inductive Outside : Node → Node → Prop
  | refl (n : Node) : Outside n n
  | child {n c m : Node} (hk : n.kind ≠ .tokenTree) (hc : c ∈ n.children) (h : Outside c m) : Outside n m

/-- A tree is another one or a tree among the tokens inside of it, at any depth. -/
inductive Inside (source : Bytes) : Node → Node → Prop
  | refl (n : Node) : Inside source n n
  | child {n c m : Node} (hc : c ∈ n.children) (hk : c.isTree = true) (hcounts : c.counts = true)
    (hlo : innerStart source n.kind n.start ≤ c.start) (hhi : c.stop ≤ innerStop source n.kind n.start n.stop)
    (h : Inside source c m) : Inside source n m

variable {source : Bytes} {n m c : Node} {v : Invocation}

theorem Outside.fits (h : n.Outside m) (hf : n.Fits source) : m.Fits source := by
  induction h with
  | refl n => exact hf
  | child hk hc h ih => exact ih (hf.child hc)

theorem Outside.mem_invocations (h : n.Outside m) (hv : v ∈ m.invocations source) : v ∈ n.invocations source := by
  induction h with
  | refl n => exact hv
  | child hk hc h ih =>
    rw [invocations_of_ne_tokenTree hk]
    exact List.mem_append_right _ (mem_allInvocations.mpr ⟨_, hc, ih hv⟩)

/-- A child between the ends of a tree gives tokens of its own. -/
theorem ownParts_mem_forestAmong {lo hi cursor stop : Int} {cs : List Node} (hin : InOrder lo hi cs) (hc : c ∈ cs)
    (hcounts : c.counts = true) (hlo : cursor ≤ c.start) (hhi : c.stop ≤ stop) {x : Part} (hx : x ∈ c.ownParts source) :
    x ∈ forestAmong source stop cursor cs := by
  induction cs generalizing lo cursor with
  | nil => cases hc
  | cons d cs ih =>
    obtain ⟨_, _, hrest⟩ := hin
    rcases List.mem_cons.mp hc with rfl | hc
    · rw [forestAmong_of_kept (kept_of_counts hcounts hlo hhi)]
      exact List.mem_append_right _ (List.mem_append_left _ hx)
    · cases hp : d.isPassedOver cursor stop with
      | true =>
        rw [forestAmong_of_passed hp]
        exact ih hrest hc hlo
      | false =>
        rw [forestAmong_of_kept hp]
        exact List.mem_append_right _ (List.mem_append_right _ (ih hrest hc (hrest.mem hc).1))

theorem Inside.fits (h : n.Inside source m) (hf : n.Fits source) : m.Fits source := by
  induction h with
  | refl n => exact hf
  | child hc _ _ _ _ h ih => exact ih (hf.child hc)

theorem Inside.mem_invocations (h : n.Inside source m) (hf : n.Fits source)
    (hv : v ∈ invocationsAmong [] (m.forest source)) : v ∈ invocationsAmong [] (n.forest source) := by
  induction h with
  | refl n => exact hv
  | @child n c m hc hk hcounts hlo hhi h ih =>
    have hx : Part.tree (c.token source) (c.kind = .tokenTree) c.hasError (c.forest source) ∈ n.forest source := by
      rw [forest_eq]
      refine ownParts_mem_forestAmong hf.wellFormed.ordered hc hcounts hlo hhi ?_
      have hcomment : c.kind ≠ .comment := fun h => by rw [isTree, h] at hk; cases hk
      rw [ownParts, if_neg hcomment, if_pos hk]
      exact List.mem_singleton_self _
    obtain ⟨a, b, hab⟩ := List.append_of_mem hx
    rw [hab, invocationsAmong_append, invocationsAmong, Part.invocations]
    exact List.mem_append_right _ (List.mem_append_left _ (List.mem_append_right _ (ih (hf.child hc) hv)))

/-- Bytes before all nodes are read as tokens of their own, up to a place where no word ends. -/
theorem forestAmong_gap {cursor q stop : Int} {cs : List Node} (h0 : 0 ≤ cursor) (hcq : cursor ≤ q) (hqs : q ≤ stop)
    (h1 : stop ≤ source.length) (hq : IsBreak source q) (hcs : ∀ c ∈ cs, q ≤ c.start ∧ c.start ≤ c.stop) :
    forestAmong source stop cursor cs =
      (gapTokens source cursor q).map .leaf ++ forestAmong source stop q cs := by
  rw [forestAmong_cut h0 hcq hqs h1 hq (fun c hc => (hcs c hc).2) (fun c hc _ => .inr (hcs c hc).1)
    (List.pairwise_of_forall_mem_list fun c _ d hd _ _ _ => (hcs d hd).1)]
  rw [forestAmong_of_all_passed fun c hc => isPassedOver_of_apart (hcs c hc).2 (.inr (hcs c hc).1)]

end Node

/-- The nodes of some items that begin at `p`. -/
inductive LaidOut : (p : Nat) → List PathItem → List Node → Prop
  | nil (p : Nat) : LaidOut p [] []
  | byte {p : Nat} {items : List PathItem} {nodes : List Node} (b : UInt8) (h : LaidOut (p + 1) items nodes) :
    LaidOut p (.byte b :: items) nodes
  | node {p : Nat} {items : List PathItem} {nodes : List Node} {c : Node} {kind : Node.Kind} {text : Bytes}
    (hkind : c.kind = kind) (hnamed : c.isNamed = true) (hstart : c.start = p)
    (hstop : c.stop = (p + text.length : Nat)) (h : LaidOut (p + text.length) items nodes) :
    LaidOut p (.node kind text :: items) (c :: nodes)

/-- A byte is no part of a word, and a node is a name, a keyword or a comment. -/
def PathItem.IsApart : PathItem → Prop
  | byte b => isWordByte b = false
  | node kind text => text ≠ [] ∧ (kind = .identifier ∨ kind = .other ∨ kind = .comment)

section

variable {source more : Bytes} {items : List PathItem} {nodes rest : List Node} {p : Nat}

theorem LaidOut.mem (h : LaidOut p items nodes) {c : Node} (hc : c ∈ nodes) :
    (p : Int) ≤ c.start ∧ c.start ≤ c.stop := by
  induction h with
  | nil p => cases hc
  | byte b h ih =>
    have := ih hc
    omega
  | node hkind hnamed hstart hstop h ih =>
    rcases List.mem_cons.mp hc with rfl | hc
    · omega
    · have := ih hc
      omega

theorem slice_of_drop {bytes : Bytes} (h : source.drop p = bytes ++ more) :
    source.slice (p : Int) ((p + bytes.length : Nat) : Int) = bytes := by
  rw [Bytes.slice, clampOffset, clampOffset, if_neg (by omega), if_neg (by omega), Int.toNat_natCast, Int.toNat_natCast,
    List.drop_take, h, Nat.add_sub_cancel_left, List.take_left]

theorem gapTokens_self (p : Nat) : gapTokens source p p = [] := by
  rw [gapTokens, bytesBetween_eq (by omega), List.drop_take, Nat.sub_self, List.take_zero]
  rfl

theorem gapTokens_byte {b : UInt8} (h : source.drop p = b :: more) (hword : isWordByte b = false) :
    gapTokens source p ((p + 1 : Nat) : Int) = (PathItem.byte b).tokens p := by
  have hbytes : bytesBetween source p ((p + 1 : Nat) : Int) = [b] := by
    rw [bytesBetween_eq (by omega), Int.toNat_natCast, Int.toNat_natCast, List.drop_take, h, Nat.add_sub_cancel_left]
    rfl
  have hslice : source.slice (p : Int) ((p + 1 : Nat) : Int) = [b] :=
    slice_of_drop (show source.drop p = [b] ++ more from h)
  rw [gapTokens, hbytes, piecesOf, piecesOf, PathItem.tokens]
  split
  · rfl
  · rw [if_neg (by rw [hword]; decide)]
    simp only [List.map_cons, List.map_nil, Piece.token]
    rw [← hslice]
    rfl

/-- The items of a path are read as their tokens. -/
theorem LaidOut.forestAmong_eq (h : LaidOut p items nodes) (hitems : ∀ i ∈ items, i.IsApart)
    (hbytes : source.drop p = itemBytes items ++ more) {stop : Int}
    (hstop : (p + (itemBytes items).length : Nat) ≤ stop) (hwithin : stop ≤ source.length)
    (hrest : ∀ c ∈ rest, ((p + (itemBytes items).length : Nat) : Int) ≤ c.start ∧ c.start ≤ c.stop) :
    Node.forestAmong source stop p (nodes ++ rest) = (itemTokens p items).map .leaf ++
      Node.forestAmong source stop ((p + (itemBytes items).length : Nat) : Int) rest := by
  induction h with
  | nil p => rfl
  | @byte p items nodes b h ih =>
    have hlen : (p + (itemBytes (.byte b :: items)).length : Nat) = p + 1 + (itemBytes items).length := by
      rw [itemBytes_cons, List.length_append, ← Nat.add_assoc]
      rfl
    rw [hlen] at hstop hrest ⊢
    obtain ⟨hword, hitems'⟩ := List.forall_mem_cons.mp hitems
    have hdrop : source.drop p = b :: (itemBytes items ++ more) := hbytes
    have hnext : source.drop (p + 1) = itemBytes items ++ more := by rw [← List.drop_drop, hdrop]; rfl
    have hbreak : IsBreak source ((p + 1 : Nat) : Int) := by
      intro x hx
      have hget : source[p]? = some b := by rw [← List.head?_drop, hdrop]; rfl
      rw [Int.toNat_natCast, List.take_add_one, hget, Option.toList_some, List.getLast?_append] at hx
      obtain rfl : b = x := Option.some.inj hx
      exact hword
    have hcs : ∀ c ∈ nodes ++ rest, ((p + 1 : Nat) : Int) ≤ c.start ∧ c.start ≤ c.stop := fun c hc => by
      rcases List.mem_append.mp hc with hc | hc
      · exact h.mem hc
      · have := hrest c hc
        omega
    rw [Node.forestAmong_gap (by omega) (by omega) (by omega) hwithin hbreak hcs, gapTokens_byte hdrop hword,
      ih hitems' hnext hstop hrest, itemTokens, List.map_append, List.append_assoc]
    rfl
  | @node p items nodes c kind text hkind hnamed hstart hstop' h ih =>
    subst hkind
    have hlen : (p + (itemBytes (.node c.kind text :: items)).length : Nat) =
        p + text.length + (itemBytes items).length := by
      rw [itemBytes_cons, List.length_append, ← Nat.add_assoc]
      rfl
    rw [hlen] at hstop hrest ⊢
    obtain ⟨⟨hne, hkinds⟩, hitems'⟩ := List.forall_mem_cons.mp hitems
    have hdrop : source.drop p = text ++ (itemBytes items ++ more) := by
      rw [hbytes, itemBytes_cons, List.append_assoc]
      rfl
    have hnext : source.drop (p + text.length) = itemBytes items ++ more := by
      rw [← List.drop_drop, hdrop, List.drop_left]
    have hpos : 0 < text.length := List.length_pos_iff.mpr hne
    have hkept : c.isPassedOver p stop = false :=
      Node.isPassedOver_eq_false_iff.mpr ⟨hnamed, by omega, by omega, by omega⟩
    have htoken : c.ownParts source = ((PathItem.node c.kind text).tokens p).map .leaf := by
      have hslice := slice_of_drop hdrop
      rw [Int.natCast_add] at hslice
      rcases hkinds with hk | hk | hk <;>
        simp [Node.ownParts, Node.isTree, PathItem.tokens, Node.token, Node.tokenKind, hk, hstart, hslice, hstop']
    rw [List.cons_append, Node.forestAmong_of_kept hkept, hstart, gapTokens_self, htoken, hstop',
      ih hitems' hnext hstop hrest, itemTokens, List.map_append, List.append_assoc]
    rfl

end

theorem encode_ne_nil {text : List Char} (h : text ≠ []) : Utf8.encode text ≠ [] := by
  cases text with
  | nil => exact absurd rfl h
  | cons c cs =>
    rw [Utf8.encode_cons]
    exact List.append_ne_nil_of_left_ne_nil (Utf8.encodeChar_ne_nil c) _

theorem PathFiller.isApart {fs : List PathFiller} {i : PathItem} (hi : i ∈ fs.flatMap PathFiller.items) :
    i.IsApart := by
  obtain ⟨f, _, hi⟩ := List.mem_flatMap.mp hi
  cases f with
  | blank c h =>
    obtain ⟨b, hb, rfl⟩ := List.mem_map.mp hi
    exact (byte_of_blank h hb).1
  | comment text h =>
    obtain rfl := List.mem_singleton.mp hi
    obtain ⟨c, hc, _⟩ := h
    exact ⟨encode_ne_nil (List.ne_nil_of_mem hc), .inr (.inr rfl)⟩

theorem PathItem.isApart_colons {i : PathItem} (hi : i ∈ PathItem.colons) : i.IsApart := by
  obtain rfl : i = .byte (asciiByte ':') := by simpa [PathItem.colons] using hi
  exact (by decide : isWordByte (asciiByte ':') = false)

theorem leadItems_isApart (root : Option (List PathFiller)) (steps : List PathStep) {i : PathItem}
    (hi : i ∈ leadItems root steps) : i.IsApart := by
  induction steps with
  | nil =>
    cases root with
    | none => cases hi
    | some after => exact (List.mem_append.mp hi).elim PathItem.isApart_colons PathFiller.isApart
  | cons s rest ih =>
    rcases List.mem_append.mp hi with hi | hi
    · exact ih hi
    · rcases List.mem_cons.mp hi with rfl | hi
      · refine ⟨encode_ne_nil s.word.nonempty, ?_⟩
        cases s.isKeyword
        · exact .inl rfl
        · exact .inr (.inl rfl)
      · exact (List.mem_append.mp hi).elim PathFiller.isApart fun hi =>
          (List.mem_append.mp hi).elim PathItem.isApart_colons PathFiller.isApart

namespace MacroPath

/-- A path with a `!` behind it, and what stands before and behind that. -/
def callItems (path : MacroPath) (before after : List PathFiller) : List PathItem :=
  path.items ++ (before.flatMap PathFiller.items ++ (.byte (asciiByte '!') :: after.flatMap PathFiller.items))

variable {path : MacroPath} {before after : List PathFiller}

theorem callItems_isApart {i : PathItem} (hi : i ∈ path.callItems before after) : i.IsApart := by
  rcases List.mem_append.mp hi with hi | hi
  · rcases List.mem_append.mp hi with hi | hi
    · exact leadItems_isApart path.root path.steps hi
    · obtain rfl := List.mem_singleton.mp hi
      exact ⟨encode_ne_nil path.name.nonempty, .inl rfl⟩
  · rcases List.mem_append.mp hi with hi | hi
    · exact PathFiller.isApart hi
    · rcases List.mem_cons.mp hi with rfl | hi
      · exact (by decide : isWordByte (asciiByte '!') = false)
      · exact PathFiller.isApart hi

/-- The tokens of a path and its `!`, nearest first. -/
theorem tokens_callItems (path : MacroPath) (p : Int) (hbefore : before.all PathFiller.isQuiet = true)
    (hafter : after.all PathFiller.isQuiet = true) :
    ∃ bang last : Token, (itemTokens p (path.callItems before after)).reverse =
        bang :: last :: (itemTokens p (leadItems path.root path.steps)).reverse ∧
      bang.isPunct '!' = true ∧ last.kind = .word ∧ last.text = Utf8.encode path.name.text := by
  have hnone {fs : List PathFiller} (h : fs.all PathFiller.isQuiet = true) (q : Int) :
      itemTokens q (fs.flatMap PathFiller.items) = [] := PathFiller.tokens_eq_nil.mpr h
  rw [callItems, items, itemTokens_append, itemTokens_append, itemTokens_append, hnone hbefore, List.nil_append]
  simp only [itemTokens, hnone hafter, List.append_nil]
  rw [List.reverse_append, List.reverse_append]
  exact ⟨⟨.punct, _, _, _⟩, ⟨.word, _, _, _⟩, rfl, rfl, rfl, rfl⟩

theorem join_lossyText (ts : List Token) :
    String.join (ts.map fun t => t.text.lossyText) = String.ofList (spokenText ts) := by
  rw [← String.toList_inj, String.toList_join, String.toList_ofList, List.flatMap_map]
  simp only [Bytes.lossyText, String.toList_ofList]
  rfl

/-- The call that a bracketed tree completes behind a path is named by what is heard. -/
theorem exists_invocationBefore (path : MacroPath) (p : Int) (hbefore : before.all PathFiller.isQuiet = true)
    (hafter : after.all PathFiller.isQuiet = true) {front : List Token} (hfront : EndsPath path.root front) (t : Token)
    (tokens : List Token) :
    ∃ v ∈ invocationBefore ((itemTokens p (path.callItems before after)).reverse ++ front) t true false tokens,
      v.name = String.ofList path.heard ∧ v.start = t.start ∧ v.stop = t.stop := by
  obtain ⟨bang, last, hback, hbang, hlast, htext⟩ := tokens_callItems path p hbefore hafter
  rw [hback, List.cons_append, List.cons_append, invocationBefore, hbang, hlast]
  refine ⟨_, List.mem_singleton_self _, ?_, rfl, rfl⟩
  rw [join_lossyText, List.reverse_cons, heard, ← spoken_lead path.root path.steps p hfront]
  simp [spokenText, htext, decodeLossy_encode]

end MacroPath

theorem Node.forestAmong_skip {source : Bytes} {cursor stop : Int} {front rest : List Node}
    (h : ∀ c ∈ front, c.isPassedOver cursor stop = true) :
    forestAmong source stop cursor (front ++ rest) = forestAmong source stop cursor rest := by
  induction front with
  | nil => rfl
  | cons c front ih =>
    rw [List.cons_append, forestAmong_of_passed (h c List.mem_cons_self)]
    exact ih fun d hd => h d (List.mem_cons_of_mem c hd)

/-- A call with the path as its name, as a node of its own in a tree. -/
structure NodeCall (path : MacroPath) (source : Bytes) where
  whole : Node
  call : Node
  name : Node
  tree : Node
  fits : whole.Fits source
  outside : whole.Outside call
  kind : call.kind = .macroInvocation
  sound : call.hasError = false
  named : call.children.find? Node.isMacroName = some name
  arguments : call.children.find? (·.kind = .tokenTree) = some tree
  text : source.slice name.start name.stop = Utf8.encode path.text

/-- A call with the path as its name among the tokens of `outer`, which is at or inside of a bracketed tree. The path is
a whole one: it does not go on before. -/
structure TreeCall (path : MacroPath) (source : Bytes) where
  whole : Node
  bracketed : Node
  outer : Node
  front : List Node
  nodes : List Node
  tree : Node
  back : List Node
  place : Nat
  before : List PathFiller
  after : List PathFiller
  more : Bytes
  fits : whole.Fits source
  outside : whole.Outside bracketed
  kind : bracketed.kind = .tokenTree
  inside : bracketed.Inside source outer
  children : outer.children = front ++ (nodes ++ tree :: back)
  laidOut : LaidOut place (path.callItems before after) nodes
  bytes : source.drop place = itemBytes (path.callItems before after) ++ more
  quietBefore : before.all PathFiller.isQuiet = true
  quietAfter : after.all PathFiller.isQuiet = true
  arguments : tree.kind = .tokenTree
  named : tree.isNamed = true
  sound : tree.hasError = false
  start : tree.start = (place + (itemBytes (path.callItems before after)).length : Nat)
  begins : Node.innerStart source outer.kind outer.start ≤ place
  ends : tree.stop ≤ Node.innerStop source outer.kind outer.start outer.stop
  passed : ∀ c ∈ front, c.stop ≤ place
  isBreak : IsBreak source place
  isWhole : EndsPath path.root ((Node.forestAmong source place (Node.innerStart source outer.kind outer.start)
    outer.children).map Part.token).reverse

variable {path : MacroPath} {source : Bytes}

/-- The call of a node is named by what its path spells out. -/
theorem NodeCall.exists_invocation (site : NodeCall path source) :
    ∃ v ∈ site.whole.invocations source, v.name = String.ofList path.spelled ∧
      v.start = site.tree.start ∧ v.stop = site.tree.stop := by
  refine ⟨⟨String.ofList path.spelled, site.name.start, site.name.stop, site.tree.start, site.tree.stop,
    (site.tree.forest source).map Part.token⟩, ?_, rfl, rfl, rfl⟩
  refine site.outside.mem_invocations ?_
  rw [Node.invocations_of_ne_tokenTree (by rw [site.kind]; decide), Node.ownInvocations, site.named, site.arguments]
  simp only [site.kind, site.sound, and_self, if_true, site.text, decodeLossy_encode]
  exact List.mem_append_left _ (List.mem_singleton_self _)

namespace TreeCall

variable (site : TreeCall path source)

/-- The tokens of the tree around a call: some before its path, those of the path, and its arguments. -/
theorem forest_eq : ∃ rest, site.outer.forest source =
    Node.forestAmong source site.place (Node.innerStart source site.outer.kind site.outer.start) site.outer.children ++
      ((itemTokens site.place (path.callItems site.before site.after)).map .leaf ++
        (.tree (site.tree.token source) true false (site.tree.forest source) :: rest)) := by
  have hfits := site.inside.fits (site.outside.fits site.fits)
  have hchildren {c : Node} (hc : c ∈ site.front ++ (site.nodes ++ site.tree :: site.back)) : c.Fits source :=
    hfits.child (site.children ▸ hc)
  have hroom := ((hchildren (by simp)).wellFormed.bracketed site.arguments).room
  have hpairs := hfits.wellFormed.ordered.pairwise
  rw [site.children] at hpairs
  obtain ⟨_, hlater, _⟩ := List.pairwise_append.mp hpairs
  have hbehind : ∀ c ∈ site.tree :: site.back, site.tree.start ≤ c.start ∧ c.start ≤ c.stop := fun c hc => by
    refine ⟨?_, (hchildren (by simp_all)).le⟩
    rcases List.mem_cons.mp hc with rfl | hc
    · exact Int.le_refl _
    · have := (List.pairwise_cons.mp (List.pairwise_append.mp hlater).2.1).1 c hc
      omega
  have hpath : ∀ c ∈ site.nodes ++ site.tree :: site.back, (site.place : Int) ≤ c.start := fun c hc => by
    rcases List.mem_append.mp hc with hc | hc
    · exact (site.laidOut.mem hc).1
    · have := (hbehind c hc).1
      have := site.start
      omega
  have hstop : Node.innerStop source site.outer.kind site.outer.start site.outer.stop ≤ source.length := by
    have := Node.innerStop_cases source site.outer.kind site.outer.start site.outer.stop
    have := hfits.within
    omega
  have hlo := Node.innerStart_cases source site.outer.kind site.outer.start
  have h0 := hfits.nonneg
  have hends := site.ends
  have hstart := site.start
  have hskip : ∀ c ∈ site.front, c.isPassedOver site.place
      (Node.innerStop source site.outer.kind site.outer.start site.outer.stop) = true := fun c hc =>
    Node.isPassedOver_of_apart (hchildren (List.mem_append_left _ hc)).le (.inl (site.passed c hc))
  have hkept : site.tree.isPassedOver site.tree.start
      (Node.innerStop source site.outer.kind site.outer.start site.outer.stop) = false :=
    Node.isPassedOver_eq_false_iff.mpr ⟨site.named, by omega, by omega, by omega⟩
  have hown : site.tree.ownParts source =
      [.tree (site.tree.token source) true false (site.tree.forest source)] := by
    simp [Node.ownParts, Node.isTree, site.arguments, site.sound]
  refine ⟨Node.forestAmong source (Node.innerStop source site.outer.kind site.outer.start site.outer.stop)
    site.tree.stop site.back, ?_⟩
  -- the tokens before the path, those of the path, and the arguments are read one after the other
  rw [Node.forest_eq, Node.forestAmong_cut (by omega) site.begins (by omega) hstop site.isBreak
    (fun c hc => (hfits.child hc).le)
    (fun c hc _ => (List.mem_append.mp (site.children ▸ hc)).imp (site.passed c) (hpath c))
    (hfits.wellFormed.ordered.pairwise.imp fun h _ _ hc => by omega)]
  congr 1
  rw [site.children, Node.forestAmong_skip hskip,
    site.laidOut.forestAmong_eq (fun i hi => MacroPath.callItems_isApart hi) site.bytes (by omega) hstop
      (fun c hc => hstart ▸ hbehind c hc),
    ← hstart, Node.forestAmong_of_kept hkept, hstart, gapTokens_self, hown]
  rfl

/-- The call in a tree is named by what is heard of its path. -/
theorem exists_invocation : ∃ v ∈ site.whole.invocations source, v.name = String.ofList path.heard ∧
    v.start = site.tree.start ∧ v.stop = site.tree.stop := by
  obtain ⟨rest, hforest⟩ := site.forest_eq
  obtain ⟨v, hv, hname, hstart, hstop⟩ := MacroPath.exists_invocationBefore path site.place site.quietBefore
    site.quietAfter site.isWhole (site.tree.token source) ((site.tree.forest source).map Part.token)
  refine ⟨v, site.outside.mem_invocations ?_, hname, hstart, hstop⟩
  rw [Node.invocations_of_tokenTree site.kind]
  refine site.inside.mem_invocations (site.outside.fits site.fits) ?_
  rw [hforest, invocationsAmong_append, invocationsAmong_leaves, invocationsAmong, Part.invocations, List.append_nil]
  exact List.mem_append_right _ (List.mem_append_left _ (List.mem_append_left _ hv))

end TreeCall

/-- The calls of a path, as a node of its own and in a bracketed tree: the one is named by what the path spells out, the
other by what is heard of it, and these are the same if and only if the path is plain. -/
theorem call_names_agree_iff {source' : Bytes} (node : NodeCall path source) (inner : TreeCall path source') :
    ∃ calls calls', callsOfTree source node.whole = .ok calls ∧ callsOfTree source' inner.whole = .ok calls' ∧
      ∃ call ∈ calls.calls, ∃ call' ∈ calls'.calls,
        call.argumentsSpan = Span.ofRange (byteLineStarts source) node.tree.start node.tree.stop ∧
        call'.argumentsSpan = Span.ofRange (byteLineStarts source') inner.tree.start inner.tree.stop ∧
        call.name = String.ofList path.spelled ∧ call'.name = String.ofList path.heard ∧
        (call.name = call'.name ↔ path.isPlain = true) := by
  obtain ⟨v, hv, hname, hstart, hstop⟩ := node.exists_invocation
  obtain ⟨w, hw, hname', hstart', hstop'⟩ := inner.exists_invocation
  refine ⟨_, _, node.fits.calls_eq, inner.fits.calls_eq, v.call source (byteLineStarts source),
    List.mem_map_of_mem (Node.mem_sortedInvocations.mpr hv), w.call source' (byteLineStarts source'),
    List.mem_map_of_mem (Node.mem_sortedInvocations.mpr hw), ?_, ?_, hname, hname', ?_⟩
  · rw [← hstart, ← hstop]
    rfl
  · rw [← hstart', ← hstop']
    rfl
  · change v.name = w.name ↔ _
    rw [hname, hname', String.ofList_inj, path.spelled_eq_heard_iff]

/-- A path of two names with a blank between the first one and the colons. -/
def spacedPath : MacroPath where
  root := none
  steps := [⟨⟨['a'], by decide, List.forall_mem_singleton.mpr (by decide)⟩, false, [.blank ' ' (by decide)], []⟩]
  name := ⟨['m'], by decide, List.forall_mem_singleton.mpr (by decide)⟩

/-- A call with a path as its name, and the same one as an argument of another call. -/
def loneCall (path : String) : Bytes := Bytes.ofString (path ++ "!(\"x\")")

def innerCall (path : String) : Bytes := Bytes.ofString ("n!(" ++ path ++ "!(\"x\"))")

/-- The trees of the two, given the length of the path and its nodes. -/
def loneCallTree (size : Int) : Node :=
  .mk .other 0 (size + 6) true false false
    [.mk .macroInvocation 0 (size + 6) true false false
      [.mk .identifier 0 size true false true [],
        .mk .tokenTree (size + 1) (size + 6) true false false
          [.mk .stringLiteral (size + 2) (size + 5) true false false []]]]

def innerCallTree (size : Int) (path : List Node) : Node :=
  .mk .other 0 (size + 10) true false false
    [.mk .macroInvocation 0 (size + 10) true false false
      [.mk .identifier 0 1 true false true [],
        .mk .tokenTree 2 (size + 10) true false false
          (path ++ [.mk .tokenTree (size + 4) (size + 9) true false false
            [.mk .stringLiteral (size + 5) (size + 8) true false false []]])]]

def spacedNodes : List Node :=
  [.mk .identifier 3 4 true false false [], .mk .identifier 7 8 true false false []]

def spacedNodeCall : NodeCall spacedPath (loneCall "a ::m") where
  whole := loneCallTree 5
  call := .mk .macroInvocation 0 11 true false false
    [.mk .identifier 0 5 true false true [],
      .mk .tokenTree 6 11 true false false [.mk .stringLiteral 7 10 true false false []]]
  name := .mk .identifier 0 5 true false true []
  tree := .mk .tokenTree 6 11 true false false [.mk .stringLiteral 7 10 true false false []]
  fits := by decide +kernel
  outside := .child (by decide) List.mem_cons_self (.refl _)
  kind := rfl
  sound := rfl
  named := rfl
  arguments := rfl
  text := by decide +kernel

def spacedTreeCall : TreeCall spacedPath (innerCall "a ::m") where
  whole := innerCallTree 5 spacedNodes
  bracketed := .mk .tokenTree 2 15 true false false
    (spacedNodes ++ [.mk .tokenTree 9 14 true false false [.mk .stringLiteral 10 13 true false false []]])
  outer := .mk .tokenTree 2 15 true false false
    (spacedNodes ++ [.mk .tokenTree 9 14 true false false [.mk .stringLiteral 10 13 true false false []]])
  front := []
  nodes := spacedNodes
  tree := .mk .tokenTree 9 14 true false false [.mk .stringLiteral 10 13 true false false []]
  back := []
  place := 3
  before := []
  after := []
  more := Bytes.ofString "(\"x\"))"
  fits := by decide +kernel
  outside := .child (by decide) List.mem_cons_self
    (.child (by decide) (List.mem_cons_of_mem _ List.mem_cons_self) (.refl _))
  kind := rfl
  inside := .refl _
  children := rfl
  laidOut := .node rfl rfl rfl rfl (.byte _ (.byte _ (.byte _ (.node rfl rfl rfl rfl (.byte _ (.nil _))))))
  bytes := by decide +kernel
  quietBefore := rfl
  quietAfter := rfl
  arguments := rfl
  named := rfl
  sound := rfl
  start := rfl
  begins := by decide +kernel
  ends := by decide +kernel
  passed := fun _ hc => (List.not_mem_nil hc).elim
  isBreak := by unfold IsBreak; decide +kernel
  isWhole := by decide +kernel

def keywordNodes : List Node :=
  [.mk .other 3 8 true false false [], .mk .identifier 10 11 true false false []]

theorem parse_innerCall : Rust.parse (loneCall "a ::m") = loneCallTree 5 ∧
    Rust.parse (innerCall "a ::m") = innerCallTree 5 spacedNodes ∧
    Rust.parse (loneCall "crate::m") = loneCallTree 8 ∧
    Rust.parse (innerCall "crate::m") = innerCallTree 8 keywordNodes := by
  decide +kernel

/-- A call with a blank in its path has the same name in both places. -/
theorem spaced_call_names_agree :
    ∃ calls calls', callsOfTree (loneCall "a ::m") (Rust.parse (loneCall "a ::m")) = .ok calls ∧
      callsOfTree (innerCall "a ::m") (Rust.parse (innerCall "a ::m")) = .ok calls' ∧
      ∃ call ∈ calls.calls, ∃ call' ∈ calls'.calls, call.name = "a::m" ∧ call.name = call'.name := by
  obtain ⟨calls, calls', hcalls, hcalls', call, hcall, call', hcall', _, _, hname, _, hiff⟩ :=
    call_names_agree_iff spacedNodeCall spacedTreeCall
  rw [parse_innerCall.1, parse_innerCall.2.1]
  exact ⟨calls, calls', hcalls, hcalls', call, hcall, call', hcall', hname, hiff.mpr rfl⟩

/-- Where the invocations are in the order of their names already, the calls have these names. -/
theorem Node.Fits.names_of_sorted {n : Node} (hf : n.Fits source)
    (h : (n.invocations source).Pairwise fun a b => a.nameStart ≤ b.nameStart) :
    (callsOfTree source n).toOption.map (fun c => c.calls.map Call.name) =
      some ((n.invocations source).map Invocation.name) := by
  rw [hf.calls_eq, Node.sortedInvocations_of_sorted h]
  simp only [Except.toOption, Option.map_some, List.map_map]
  rfl

/-- A path with a keyword is cut short inside of a tree. -/
theorem keyword_path_cut_short :
    (callsOfTree (loneCall "crate::m") (Rust.parse (loneCall "crate::m"))).toOption.map
        (fun c => c.calls.map Call.name) = some ["crate::m"] ∧
      (callsOfTree (innerCall "crate::m") (Rust.parse (innerCall "crate::m"))).toOption.map
        (fun c => c.calls.map Call.name) = some ["n", "m"] := by
  have hlone : (loneCallTree 8).Fits (loneCall "crate::m") ∧
      ((loneCallTree 8).invocations (loneCall "crate::m")).Pairwise (fun a b => a.nameStart ≤ b.nameStart) ∧
      ((loneCallTree 8).invocations (loneCall "crate::m")).map Invocation.name = ["crate::m"] := by decide +kernel
  have hinner : (innerCallTree 8 keywordNodes).Fits (innerCall "crate::m") ∧
      ((innerCallTree 8 keywordNodes).invocations (innerCall "crate::m")).Pairwise
        (fun a b => a.nameStart ≤ b.nameStart) ∧
      ((innerCallTree 8 keywordNodes).invocations (innerCall "crate::m")).map Invocation.name = ["n", "m"] := by
    decide +kernel
  rw [parse_innerCall.2.2.1, parse_innerCall.2.2.2, hlone.1.names_of_sorted hlone.2.1,
    hinner.1.names_of_sorted hinner.2.1, hlone.2.2, hinner.2.2]
  exact ⟨rfl, rfl⟩

end LogRef
