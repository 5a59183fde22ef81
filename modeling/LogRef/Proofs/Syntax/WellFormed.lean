import LogRef.Proofs.Syntax.Forest

/-!
# Well-formed trees

A tree is well formed when the children of every node come in order inside of it, bracketed trees have their
brackets, and no name of a macro has a string literal in it. The forest of a well-formed tree inside of its
source is laid out: tokens come one after the other, each with its own bytes as its text, and the tokens of a
tree lie inside of its brackets.
-/
namespace LogRef

namespace Node

/-- Nodes that come one after the other between two positions. -/
def InOrder : (lo hi : Int) → List Node → Prop
  | lo, hi, [] => lo ≤ hi
  | lo, hi, n :: rest => lo ≤ n.start ∧ n.start ≤ n.stop ∧ InOrder n.stop hi rest

mutual

/-- Whether a string literal is at or below a node. -/
def hasString : Node → Bool
  | mk kind _ _ _ _ _ children => kind = .stringLiteral || anyString children

def anyString : List Node → Bool
  | [] => false
  | n :: rest => n.hasString || anyString rest

end

/-- A range that begins with an opening bracket and ends with a closing one. -/
structure Bracketed (source : Bytes) (start stop : Int) : Prop where
  room : start + 2 ≤ stop
  opener : isOpener (source.slice start (start + 1)) = true
  closer : isCloser (source.slice (stop - 1) stop) = true

inductive WellFormed (source : Bytes) : Node → Prop
  | mk {kind : Kind} {start stop : Int} {isNamed hasError isMacroName : Bool} {children : List Node}
      (ordered : InOrder start stop children)
      (bracketed : kind = .tokenTree → Bracketed source start stop)
      (plainName : isMacroName = true →
        hasString (.mk kind start stop isNamed hasError isMacroName children) = false)
      (below : ∀ c ∈ children, WellFormed source c) :
      WellFormed source (.mk kind start stop isNamed hasError isMacroName children)

mutual

instance decidableEq : (a b : Node) → Decidable (a = b)
  | mk k s t n e m children, mk k' s' t' n' e' m' children' =>
    have := decidableEqAll children children'
    decidable_of_iff (k = k' ∧ s = s' ∧ t = t' ∧ n = n' ∧ e = e' ∧ m = m' ∧ children = children')
      (by rw [mk.injEq])

def decidableEqAll : (as bs : List Node) → Decidable (as = bs)
  | [], [] => isTrue rfl
  | [], b :: bs => isFalse (List.cons_ne_nil b bs).symm
  | a :: as, [] => isFalse (List.cons_ne_nil a as)
  | a :: as, b :: bs =>
    have := decidableEq a b
    have := decidableEqAll as bs
    decidable_of_iff (a = b ∧ as = bs) (by rw [List.cons.injEq])

end

instance decidableInOrder : (lo hi : Int) → (ns : List Node) → Decidable (InOrder lo hi ns)
  | lo, hi, [] => inferInstanceAs (Decidable (lo ≤ hi))
  | lo, hi, n :: rest =>
    have := decidableInOrder n.stop hi rest
    inferInstanceAs (Decidable (lo ≤ n.start ∧ n.start ≤ n.stop ∧ InOrder n.stop hi rest))

instance (source : Bytes) (start stop : Int) : Decidable (Bracketed source start stop) :=
  decidable_of_iff (start + 2 ≤ stop ∧ isOpener (source.slice start (start + 1)) = true ∧
      isCloser (source.slice (stop - 1) stop) = true)
    ⟨fun ⟨h1, h2, h3⟩ => ⟨h1, h2, h3⟩, fun ⟨h1, h2, h3⟩ => ⟨h1, h2, h3⟩⟩

mutual

instance decidableWellFormed (source : Bytes) : (n : Node) → Decidable (n.WellFormed source)
  | .mk kind start stop isNamed hasError isMacroName children =>
    have := decidableAllWellFormed source children
    decidable_of_iff (InOrder start stop children ∧ (kind = .tokenTree → Bracketed source start stop) ∧
        (isMacroName = true →
          hasString (.mk kind start stop isNamed hasError isMacroName children) = false) ∧
        ∀ c ∈ children, WellFormed source c)
      ⟨fun ⟨h1, h2, h3, h4⟩ => .mk h1 h2 h3 h4, fun h => by
        cases h with | mk h1 h2 h3 h4 => exact ⟨h1, h2, h3, h4⟩⟩

def decidableAllWellFormed (source : Bytes) :
    (ns : List Node) → Decidable (∀ c ∈ ns, WellFormed source c)
  | [] => isTrue fun _ hc => (List.not_mem_nil hc).elim
  | n :: rest =>
    have := decidableWellFormed source n
    have := decidableAllWellFormed source rest
    decidable_of_iff (n.WellFormed source ∧ ∀ c ∈ rest, WellFormed source c) List.forall_mem_cons.symm

end

/-- A well-formed tree inside of its source. -/
structure Fits (source : Bytes) (n : Node) : Prop where
  wellFormed : n.WellFormed source
  nonneg : 0 ≤ n.start
  within : n.stop ≤ source.length

instance (source : Bytes) (n : Node) : Decidable (n.Fits source) :=
  decidable_of_iff (n.WellFormed source ∧ 0 ≤ n.start ∧ n.stop ≤ source.length)
    ⟨fun ⟨h1, h2, h3⟩ => ⟨h1, h2, h3⟩, fun ⟨h1, h2, h3⟩ => ⟨h1, h2, h3⟩⟩

variable {source : Bytes} {n c : Node}

theorem WellFormed.ordered (h : n.WellFormed source) : InOrder n.start n.stop n.children := by
  cases h; assumption

theorem WellFormed.bracketed (h : n.WellFormed source) (hk : n.kind = .tokenTree) :
    Bracketed source n.start n.stop := by
  cases h with
  | mk _ hb _ _ => exact hb hk

theorem WellFormed.plainName (h : n.WellFormed source) (hm : n.isMacroName = true) :
    n.hasString = false := by
  cases h with
  | mk _ _ hp _ => exact hp hm

theorem WellFormed.child (h : n.WellFormed source) (hc : c ∈ n.children) : c.WellFormed source := by
  cases h with
  | mk _ _ _ hb => exact hb c hc

theorem InOrder.le {lo hi : Int} {ns : List Node} (h : InOrder lo hi ns) : lo ≤ hi := by
  induction ns generalizing lo with
  | nil => exact h
  | cons n ns ih =>
    obtain ⟨hlo, hle, hrest⟩ := h
    have := ih hrest
    omega

theorem InOrder.mem {lo hi : Int} {ns : List Node} (h : InOrder lo hi ns) (hc : c ∈ ns) :
    lo ≤ c.start ∧ c.start ≤ c.stop ∧ c.stop ≤ hi := by
  induction ns generalizing lo with
  | nil => cases hc
  | cons n ns ih =>
    obtain ⟨hlo, hle, hrest⟩ := h
    rcases List.mem_cons.mp hc with rfl | hc
    · exact ⟨hlo, hle, hrest.le⟩
    · have := ih hrest hc
      omega

theorem InOrder.from_le {lo mid hi : Int} {ns : List Node} (h : InOrder mid hi ns) (hle : lo ≤ mid) :
    InOrder lo hi ns := by
  cases ns with
  | nil => exact Int.le_trans hle h
  | cons n ns => exact ⟨Int.le_trans hle h.1, h.2⟩

/-- Of two nodes in order, one ends before the other begins, or they are the same. -/
theorem InOrder.apart {lo hi : Int} {ns : List Node} (h : InOrder lo hi ns) {a b : Node}
    (ha : a ∈ ns) (hb : b ∈ ns) : a = b ∨ a.stop ≤ b.start ∨ b.stop ≤ a.start := by
  induction ns generalizing lo with
  | nil => cases ha
  | cons n ns ih =>
    obtain ⟨_, _, hrest⟩ := h
    rcases List.mem_cons.mp ha with rfl | ha' <;> rcases List.mem_cons.mp hb with rfl | hb'
    · exact Or.inl rfl
    · exact Or.inr (Or.inl (hrest.mem hb').1)
    · exact Or.inr (Or.inr (hrest.mem ha').1)
    · exact ih hrest ha' hb'

theorem Fits.le (h : n.Fits source) : n.start ≤ n.stop := h.wellFormed.ordered.le

theorem Fits.child (h : n.Fits source) (hc : c ∈ n.children) : c.Fits source := by
  have hw := h.wellFormed.ordered.mem hc
  have h0 := h.nonneg
  have h1 := h.within
  exact ⟨h.wellFormed.child hc, by omega, by omega⟩

theorem allInRange_of_forall {length : Nat} {inTree : Bool} {ns : List Node}
    (h : ∀ c ∈ ns, c.InRange length inTree) : AllInRange length inTree ns := by
  induction ns with
  | nil => trivial
  | cons n ns ih =>
    rw [AllInRange]
    exact ⟨h n List.mem_cons_self, ih fun c hc => h c (List.mem_cons_of_mem n hc)⟩

theorem Fits.inRange (h : n.Fits source) (inTree : Bool) : n.InRange source.length inTree := by
  obtain ⟨hw, h0, h1⟩ := h
  induction hw generalizing inTree with
  | @mk kind start stop isNamed hasError isMacroName children ho _ _ _ ih =>
    simp only [Node.start, Node.stop] at h0 h1
    rw [InRange]
    refine ⟨⟨h0, ho.le, h1⟩, fun _ => allInRange_of_forall fun c hc => ?_⟩
    have hb := ho.mem hc
    exact ih c hc _ (by omega) (by omega)

theorem hasString_of_mem (hc : c ∈ n.children) (h : c.hasString = true) : n.hasString = true := by
  have hany : ∀ {ns : List Node}, c ∈ ns → anyString ns = true := by
    intro ns hm
    induction ns with
    | nil => cases hm
    | cons d ns ih =>
      rw [anyString, Bool.or_eq_true]
      rcases List.mem_cons.mp hm with rfl | hm
      · exact Or.inl h
      · exact Or.inr (ih hm)
  cases n with
  | mk kind start stop isNamed hasError isMacroName children =>
    have hall : anyString children = true := hany hc
    rw [hasString, hall, Bool.or_true]

theorem hasString_of_kind (h : n.kind = .stringLiteral) : n.hasString = true := by
  cases n with
  | mk kind start stop isNamed hasError isMacroName children =>
    rw [hasString, decide_eq_true (show kind = .stringLiteral from h), Bool.true_or]

end Node

/-- A token inside of the source, with its bytes as its text. -/
structure Token.Covers (source : Bytes) (t : Token) : Prop where
  nonneg : 0 ≤ t.start
  nonempty : t.start < t.stop
  within : t.stop ≤ source.length
  text : t.text = source.slice t.start t.stop

/-- Tokens that come one after the other between two positions. -/
def TokensInOrder : (lo hi : Int) → List Token → Prop
  | lo, hi, [] => lo ≤ hi
  | lo, hi, t :: rest => lo ≤ t.start ∧ t.start < t.stop ∧ TokensInOrder t.stop hi rest

mutual

/-- A token that covers its text; the tokens of a tree come in order inside of it, brackets apart. -/
def Part.Placed (source : Bytes) : Part → Prop
  | .leaf t => t.Covers source ∧ t.kind ≠ .tree
  | .tree t isBracketed _ inside =>
    t.Covers source ∧ t.kind = .tree ∧
      TokensInOrder (t.start + if isBracketed then 1 else 0) (t.stop - if isBracketed then 1 else 0)
        (inside.map Part.token) ∧ AllPlaced source inside

def AllPlaced (source : Bytes) : List Part → Prop
  | [] => True
  | p :: rest => p.Placed source ∧ AllPlaced source rest

end

theorem AllPlaced.mem {source : Bytes} {ps : List Part} (h : AllPlaced source ps) {p : Part}
    (hp : p ∈ ps) : p.Placed source := by
  induction ps with
  | nil => cases hp
  | cons q ps ih =>
    rw [AllPlaced] at h
    rcases List.mem_cons.mp hp with rfl | hp
    · exact h.1
    · exact ih h.2 hp

theorem allPlaced_append {source : Bytes} {a b : List Part} :
    AllPlaced source (a ++ b) ↔ AllPlaced source a ∧ AllPlaced source b := by
  induction a with
  | nil => simp [AllPlaced]
  | cons p a ih => simp [AllPlaced, ih, and_assoc]

theorem Part.Placed.covers {source : Bytes} {p : Part} (h : p.Placed source) :
    p.token.Covers source := by
  cases p <;> exact h.1

namespace TokensInOrder

variable {lo mid hi : Int} {ts us : List Token} {t : Token}

theorem le (h : TokensInOrder lo hi ts) : lo ≤ hi := by
  induction ts generalizing lo with
  | nil => exact h
  | cons t ts ih =>
    obtain ⟨hlo, hlt, hrest⟩ := h
    have := ih hrest
    omega

theorem mem (h : TokensInOrder lo hi ts) (ht : t ∈ ts) :
    lo ≤ t.start ∧ t.start < t.stop ∧ t.stop ≤ hi := by
  induction ts generalizing lo with
  | nil => cases ht
  | cons u ts ih =>
    obtain ⟨hlo, hlt, hrest⟩ := h
    rcases List.mem_cons.mp ht with rfl | ht
    · exact ⟨hlo, hlt, hrest.le⟩
    · have := ih hrest ht
      omega

theorem apart (h : TokensInOrder lo hi ts) {u : Token} (ht : t ∈ ts) (hu : u ∈ ts) :
    t = u ∨ t.stop ≤ u.start ∨ u.stop ≤ t.start := by
  induction ts generalizing lo with
  | nil => cases ht
  | cons a ts ih =>
    obtain ⟨_, _, hrest⟩ := h
    rcases List.mem_cons.mp ht with rfl | ht' <;> rcases List.mem_cons.mp hu with rfl | hu'
    · exact Or.inl rfl
    · exact Or.inr (Or.inl (hrest.mem hu').1)
    · exact Or.inr (Or.inr (hrest.mem ht').1)
    · exact ih hrest ht' hu'

theorem from_le (h : TokensInOrder mid hi ts) (hle : lo ≤ mid) : TokensInOrder lo hi ts := by
  cases ts with
  | nil => exact Int.le_trans hle h
  | cons t ts => exact ⟨Int.le_trans hle h.1, h.2⟩

theorem append (ha : TokensInOrder lo mid ts) (hb : TokensInOrder mid hi us) :
    TokensInOrder lo hi (ts ++ us) := by
  induction ts generalizing lo with
  | nil => exact hb.from_le ha
  | cons t ts ih => exact ⟨ha.1, ha.2.1, ih ha.2.2⟩

theorem of_append_cons (h : TokensInOrder lo hi (ts ++ t :: us)) :
    TokensInOrder lo t.start ts ∧ TokensInOrder t.start hi (t :: us) := by
  induction ts generalizing lo with
  | nil => exact ⟨h.1, Int.le_refl _, h.2⟩
  | cons u ts ih =>
    obtain ⟨hlo, hlt, hrest⟩ := h
    obtain ⟨hbefore, hbehind⟩ := ih hrest
    exact ⟨⟨hlo, hlt, hbefore⟩, hbehind⟩

/-- Two parts of one list whose tokens both reach around a position are the same part. -/
theorem part_unique {ps : List Part} (h : TokensInOrder lo hi (ps.map Part.token)) {a b : Part}
    (ha : a ∈ ps) (hb : b ∈ ps) {p : Int} (ha' : a.token.start < p ∧ p < a.token.stop)
    (hb' : b.token.start < p ∧ p < b.token.stop) : a = b := by
  induction ps generalizing lo with
  | nil => cases ha
  | cons q ps ih =>
    obtain ⟨_, _, hrest⟩ := h
    rcases List.mem_cons.mp ha with rfl | ham <;> rcases List.mem_cons.mp hb with rfl | hbm
    · rfl
    · have := hrest.mem (List.mem_map_of_mem hbm)
      omega
    · have := hrest.mem (List.mem_map_of_mem ham)
      omega
    · exact ih hrest ham hbm

end TokensInOrder

section

variable {source : Bytes}

/-- What a byte does to the pieces behind it: it is a blank, stands alone, or begins the word there. -/
theorem piecesOf_cons (position : Int) (b : UInt8) (rest : Bytes) :
    (isSpaceByte b = true ∧ piecesOf position (b :: rest) = piecesOf (position + 1) rest) ∨
      (∃ kind, isSpaceByte b = false ∧ (kind = .word ∨ kind = .punct ∨ kind = .atom) ∧
        (kind = .word → ∀ p ∈ (piecesOf (position + 1) rest).head?, p.kind = .word → p.start ≠ position + 1) ∧
        piecesOf position (b :: rest) = ⟨kind, position, position + 1⟩ :: piecesOf (position + 1) rest) ∨
      ∃ p more, isSpaceByte b = false ∧ piecesOf (position + 1) rest = p :: more ∧ p.kind = .word ∧
        p.start = position + 1 ∧ piecesOf position (b :: rest) = ⟨.word, position, p.stop⟩ :: more := by
  simp only [piecesOf]
  split
  · next hs => exact Or.inl ⟨hs, rfl⟩
  · next hs =>
    have hs : isSpaceByte b = false := Bool.eq_false_iff.mpr hs
    split
    · split
      · next p more heq =>
        split
        · next h => exact Or.inr (Or.inr ⟨p, more, hs, heq, h.1, h.2, rfl⟩)
        · next h =>
          refine Or.inr (Or.inl ⟨.word, hs, by decide, fun _ q hq hk hstart => h ?_, rfl⟩)
          rw [heq] at hq
          obtain rfl := Option.some.inj hq
          exact ⟨hk, hstart⟩
      · next heq =>
        rw [heq]
        exact Or.inr (Or.inl ⟨.word, hs, by decide, fun _ _ hq => (nomatch hq), rfl⟩)
    · refine Or.inr (Or.inl ⟨_, hs, ?_, ?_, rfl⟩)
      · split <;> decide
      · split <;> exact fun h => nomatch h

/-- The pieces of bare bytes come in order. -/
theorem piecesOf_inOrder (source : Bytes) (position : Int) (bytes : Bytes) :
    TokensInOrder position (position + bytes.length)
      ((piecesOf position bytes).map (Piece.token source)) := by
  induction bytes generalizing position with
  | nil => exact Int.le_of_eq (Int.add_zero position).symm
  | cons b rest ih =>
    have htail := ih (position + 1)
    have hlen : position + 1 + (rest.length : Int) = position + (b :: rest).length := by
      simp only [List.length_cons]
      omega
    rw [hlen] at htail
    rcases piecesOf_cons position b rest with ⟨_, h⟩ | ⟨kind, _, _, _, h⟩ | ⟨p, more, _, hp, _, hstart, h⟩
    · rw [h]
      exact htail.from_le (by omega)
    · rw [h]
      exact ⟨Int.le_refl position, Int.lt_add_one_of_le (Int.le_refl position), htail⟩
    · rw [hp] at htail
      rw [h]
      obtain ⟨_, hlt, hmore⟩ := htail
      simp only [Piece.token] at hlt
      refine ⟨Int.le_refl position, ?_, hmore⟩
      simp only [Piece.token]
      omega

/-- A piece of bare bytes is no string and no tree. -/
theorem kind_of_mem_piecesOf {position : Int} {bytes : Bytes} {p : Piece}
    (h : p ∈ piecesOf position bytes) : p.kind ≠ .string ∧ p.kind ≠ .tree := by
  induction bytes generalizing position p with
  | nil => cases h
  | cons b rest ih =>
    rcases piecesOf_cons position b rest with ⟨_, hb⟩ | ⟨kind, _, hk, _, hb⟩ | ⟨q, more, _, hq, _, _, hb⟩
    · exact ih (hb ▸ h)
    · rw [hb] at h
      rcases List.mem_cons.mp h with rfl | h
      · rcases hk with rfl | rfl | rfl <;> exact ⟨by simp, by simp⟩
      · exact ih h
    · rw [hb] at h
      rcases List.mem_cons.mp h with rfl | h
      · exact ⟨by simp, by simp⟩
      · exact ih (hq ▸ List.mem_cons_of_mem q h)

theorem bytesBetween_eq {start : Int} (h : 0 ≤ start) (stop : Int) :
    bytesBetween source start stop = (source.take stop.toNat).drop start.toNat := by
  have hzero : (min stop 0 - start).toNat = 0 := by omega
  rw [bytesBetween, hzero, List.take_zero, List.nil_append]

theorem length_bytesBetween {start stop : Int} (h0 : 0 ≤ start) (hle : start ≤ stop)
    (h1 : stop ≤ source.length) : start + (bytesBetween source start stop).length = stop := by
  rw [bytesBetween_eq h0, List.length_drop, List.length_take]
  omega

theorem gapTokens_inOrder {start stop : Int} (h0 : 0 ≤ start) (hle : start ≤ stop)
    (h1 : stop ≤ source.length) : TokensInOrder start stop (gapTokens source start stop) := by
  have h := piecesOf_inOrder source start (bytesBetween source start stop)
  rwa [length_bytesBetween h0 hle h1] at h

theorem gapTokens_placed {start stop : Int} (h0 : 0 ≤ start) (hle : start ≤ stop)
    (h1 : stop ≤ source.length) :
    AllPlaced source ((gapTokens source start stop).map .leaf) := by
  have hin := gapTokens_inOrder h0 hle h1
  have hall : ∀ t ∈ gapTokens source start stop, t.Covers source ∧ t.kind ≠ .tree := by
    intro t ht
    have hb := hin.mem ht
    obtain ⟨p, hp, rfl⟩ := List.mem_map.mp ht
    exact ⟨⟨by omega, hb.2.1, by omega, rfl⟩, (kind_of_mem_piecesOf hp).2⟩
  generalize gapTokens source start stop = ts at hall
  induction ts with
  | nil => trivial
  | cons t ts ih =>
    rw [List.map_cons, AllPlaced]
    exact ⟨hall t List.mem_cons_self, ih fun u hu => hall u (List.mem_cons_of_mem t hu)⟩

namespace Node

variable {n : Node}

/-- The tokens of a well-formed tree begin behind its opening bracket. -/
theorem Fits.innerStart_eq (h : n.Fits source) :
    innerStart source n.kind n.start = n.start + if n.kind = .tokenTree then 1 else 0 := by
  unfold innerStart
  by_cases hk : n.kind = .tokenTree
  · rw [if_pos ⟨hk, (h.wellFormed.bracketed hk).opener⟩, if_pos hk]
  · rw [if_neg fun hc => hk hc.1, if_neg hk, Int.add_zero]

theorem Fits.innerStop_eq (h : n.Fits source) :
    innerStop source n.kind n.start n.stop = n.stop - if n.kind = .tokenTree then 1 else 0 := by
  unfold innerStop
  rw [h.innerStart_eq]
  by_cases hk : n.kind = .tokenTree
  · have hb := h.wellFormed.bracketed hk
    have hroom := hb.room
    rw [if_pos hk, if_pos ⟨hk, by omega, hb.closer⟩]
  · rw [if_neg fun hc => hk hc.1, if_neg hk, Int.sub_zero]

/-- There is room between the brackets. -/
theorem Fits.inner_le (h : n.Fits source) :
    innerStart source n.kind n.start ≤ innerStop source n.kind n.start n.stop := by
  rw [h.innerStart_eq, h.innerStop_eq]
  have hle := h.le
  split
  · next hk =>
    have := (h.wellFormed.bracketed hk).room
    omega
  · omega

theorem tokenKind_of_isTree (h : n.isTree = true) : n.tokenKind = .tree := by
  unfold isTree at h
  unfold tokenKind
  split <;> simp_all

theorem tokenKind_of_not_isTree (h : n.isTree = false) : n.tokenKind ≠ .tree := by
  unfold isTree at h
  unfold tokenKind
  split <;> simp_all

theorem Fits.covers (h : n.Fits source) (hne : n.start ≠ n.stop) : (n.token source).Covers source := by
  have hle := h.le
  exact ⟨h.nonneg, by simp only [Node.token]; omega, h.within, rfl⟩

mutual

theorem forest_placed (n : Node) (h : n.Fits source) :
    TokensInOrder (n.start + if n.kind = .tokenTree then 1 else 0)
        (n.stop - if n.kind = .tokenTree then 1 else 0) ((n.forest source).map Part.token) ∧
      AllPlaced source (n.forest source) := by
  have h0 := h.nonneg
  have h1 := h.within
  have hin := h.inner_le
  rw [← h.innerStart_eq, ← h.innerStop_eq]
  match n with
  | mk kind start stop isNamed hasError isMacroName children =>
    simp only [Node.start, Node.stop, Node.kind] at h0 h1 hin ⊢
    have hs := innerStart_cases source kind start
    have he := innerStop_cases source kind start stop
    rw [forest]
    exact forestAmong_placed children (fun c hc => h.child hc) (by omega) hin (by omega)

theorem forestAmong_placed (children : List Node) (h : ∀ c ∈ children, c.Fits source)
    {stop cursor : Int} (h0 : 0 ≤ cursor) (hle : cursor ≤ stop) (h1 : stop ≤ source.length) :
    TokensInOrder cursor stop ((forestAmong source stop cursor children).map Part.token) ∧
      AllPlaced source (forestAmong source stop cursor children) := by
  match children with
  | [] =>
    rw [forestAmong, map_token_leaf]
    exact ⟨gapTokens_inOrder h0 hle h1, gapTokens_placed h0 hle h1⟩
  | c :: rest =>
    have hrest : ∀ d ∈ rest, d.Fits source := fun d hd => h d (List.mem_cons_of_mem c hd)
    cases hp : c.isPassedOver cursor stop with
    | true =>
      rw [forestAmong_of_passed hp]
      exact forestAmong_placed rest hrest h0 hle h1
    | false =>
      obtain ⟨_, hne, hcur, hstop⟩ := isPassedOver_eq_false_iff.mp hp
      have hc := h c List.mem_cons_self
      have hcle := hc.le
      have hgap : TokensInOrder cursor c.start (gapTokens source cursor c.start) :=
        gapTokens_inOrder h0 hcur (by omega)
      have hmore : TokensInOrder c.stop stop
          ((forestAmong source stop c.stop rest).map Part.token) ∧
            AllPlaced source (forestAmong source stop c.stop rest) :=
        forestAmong_placed rest hrest (by omega) hstop h1
      obtain ⟨horder, hplaced⟩ := hmore
      rw [forestAmong_of_kept hp, List.map_append, List.map_append, map_token_leaf,
        allPlaced_append, allPlaced_append, ownParts]
      refine ⟨hgap.append ?_, gapTokens_placed h0 hcur (by omega), ?_, hplaced⟩
      · split
        · exact horder.from_le hcle
        · split <;> exact ⟨Int.le_refl _, (hc.covers hne).nonempty, horder⟩
      · split
        · trivial
        · split
          · next htree =>
            obtain ⟨hin, hall⟩ := forest_placed c hc
            rw [AllPlaced, AllPlaced, Part.Placed]
            simp only [decide_eq_true_eq]
            exact ⟨⟨hc.covers hne, tokenKind_of_isTree htree, hin, hall⟩, trivial⟩
          · next htree =>
            rw [AllPlaced, AllPlaced, Part.Placed]
            exact ⟨⟨hc.covers hne, tokenKind_of_not_isTree (Bool.eq_false_iff.mpr htree)⟩, trivial⟩

end

end Node

end

end LogRef
