import LogRef.Proofs.Syntax.Message
import LogRef.Proofs.Syntax.Tiling

/-!
# Layout of a call

Where the parts of a call are depends on the tokens of its argument tree alone. They come in order between the
brackets: a target, the place for a new argument, the key-value arguments and the message.
-/
namespace LogRef

def Span.range (s : Span) : Int × Int := (s.start, s.stop)

/-- Where an argument begins and ends, if there is something in it. -/
def Segment.range (s : Segment) : Option (Int × Int) := do
  let first ← s.tokens.head?
  let last ← s.tokens.getLast?
  return (first.start, last.stop)

/-- Where the value of a key-value argument begins. -/
def Segment.valueStart (s : Segment) : Option Int :=
  ((assignment s.tokens).bind fun i => s.tokens[i + 1]?).map Token.start

/-- The ranges of a key-value argument and of its value. -/
def Segment.ranges (s : Segment) : Option ((Int × Int) × Option (Int × Int)) :=
  s.range.map fun r => (r, s.valueStart.map fun v => (v, r.2))

def KeyValue.ranges (kv : KeyValue) : (Int × Int) × Option (Int × Int) :=
  (kv.span.range, kv.value.map Span.range)

/-- The range of a leading target. -/
def targetRange (tokens : List Token) : Option (Int × Int) :=
  (segmentsOf tokens).head?.bind fun s => if s.isTarget then s.range else none

/-- Where a new argument goes in a bracketed tree that begins at `start`. -/
def insertionOffset (start : Int) (tokens : List Token) : Int :=
  match targetRange tokens with
  | none => start + 1
  | some r => (((argumentsOf tokens).head?.bind fun s => s.tokens.head?).map Token.start).getD r.2

/-- Where the parts of a call are, the message apart. -/
structure Outline where
  target : Option (Int × Int)
  keyValues : List ((Int × Int) × Option (Int × Int))
  insertAt : Int
  deriving DecidableEq, Repr

def Call.outline (call : Call) : Outline :=
  ⟨call.target.map Span.range, call.keyValues.map KeyValue.ranges, call.insertAt.start⟩

/-- A bracketed tree of the source. Its named children come in order between the brackets; the others are the
brackets and separators themselves. -/
structure Node.ArgumentTree (source : Bytes) (n : Node) : Prop where
  kind : n.kind = .tokenTree
  nonneg : 0 ≤ n.start
  bracketed : Bracketed source n.start n.stop
  ordered : InOrder (n.start + 1) (n.stop - 1) (n.children.filter Node.isNamed)

instance (source : Bytes) (n : Node) : Decidable (n.ArgumentTree source) :=
  decidable_of_iff (n.kind = .tokenTree ∧ 0 ≤ n.start ∧ Node.Bracketed source n.start n.stop ∧
      Node.InOrder (n.start + 1) (n.stop - 1) (n.children.filter Node.isNamed))
    ⟨fun ⟨h1, h2, h3, h4⟩ => ⟨h1, h2, h3, h4⟩, fun ⟨h1, h2, h3, h4⟩ => ⟨h1, h2, h3, h4⟩⟩

/-- The parts of a call come in order from `lo` to `hi`. -/
structure Call.LaidOut (source : Bytes) (lo hi : Int) (call : Call) : Prop where
  insertAt : lo ≤ call.insertAt.start ∧ call.insertAt.stop = call.insertAt.start ∧ call.insertAt.stop ≤ hi
  target : ∀ t ∈ call.target, lo ≤ t.start ∧ t.start < t.stop ∧ t.stop ≤ call.insertAt.start
  keyValues : ∀ kv ∈ call.keyValues,
    call.insertAt.start ≤ kv.span.start ∧ kv.span.start < kv.span.stop ∧ kv.span.stop ≤ hi
  ordered : call.keyValues.Pairwise fun a b => a.span.stop ≤ b.span.start
  /-- A value is what a key-value argument ends with, and not all of it. -/
  values : ∀ kv ∈ call.keyValues, ∀ v ∈ kv.value,
    kv.span.start < v.start ∧ v.start < v.stop ∧ v.stop = kv.span.stop
  message : ∀ m ∈ call.message, call.insertAt.start < m.span.start ∧ m.span.start ≤ m.span.stop ∧ m.span.stop < hi
  behind : ∀ m ∈ call.message, ∀ kv ∈ call.keyValues, kv.span.stop ≤ m.span.start
  quotes : ∀ m ∈ call.message, source[(m.span.start - 1).toNat]? = some quoteByte ∧
    source[m.span.stop.toNat]? = some quoteByte

section

variable {source : Bytes} {lines : List Nat} {ts : List Token} {s : Segment} {start lo hi : Int} {t : Token}

/-! ## From a call to its tokens -/

theorem Segment.range_eq_some {r : Int × Int} : s.range = some r ↔
    ∃ first last, s.tokens.head? = some first ∧ s.tokens.getLast? = some last ∧ r = (first.start, last.stop) := by
  simp only [Segment.range, bind, Option.bind_eq_some_iff, pure, Option.some.injEq]
  constructor
  · rintro ⟨first, hfirst, last, hlast, rfl⟩
    exact ⟨first, last, hfirst, hlast, rfl⟩
  · rintro ⟨first, last, hfirst, hlast, rfl⟩
    exact ⟨first, hfirst, last, hlast, rfl⟩

theorem Segment.range_cons {first : Token} {rest : List Token} (h : s.tokens = first :: rest) :
    s.range = some (first.start, ((first :: rest).getLastD first).stop) := by
  refine Segment.range_eq_some.mpr ⟨first, (first :: rest).getLastD first, by rw [h]; rfl, ?_, rfl⟩
  rw [h, List.getLastD_eq_getLast?, List.getLast?_cons]
  rfl

theorem map_range_targetSpan (lines : List Nat) (ts : List Token) :
    (targetSpan lines (segmentsOf ts)).map Span.range = targetRange ts := by
  unfold targetRange
  cases segmentsOf ts with
  | nil => rfl
  | cons s ss =>
    rw [targetSpan, List.head?_cons, Option.bind_some]
    split
    · cases hs : s.tokens with
      | nil => rw [Segment.range, hs]; rfl
      | cons first rest => rw [Segment.range_cons hs]; rfl
    · rfl

theorem Segment.map_ranges_keyValue (source : Bytes) (lines : List Nat) (s : Segment) :
    (s.keyValue source lines).map KeyValue.ranges = s.ranges := by
  unfold Segment.keyValue Segment.ranges Segment.valueStart
  cases hs : s.tokens with
  | nil => rw [Segment.range, hs]; rfl
  | cons first rest =>
    rw [Segment.range_cons hs]
    simp only
    cases (assignment (first :: rest)).bind fun i => (first :: rest)[i + 1]? <;> rfl

/-- Where the parts of a call are can be told from its tokens. -/
theorem Invocation.call_outline (source : Bytes) (lines : List Nat) (v : Invocation) :
    (v.call source lines).outline = ⟨targetRange v.tokens,
      (splitArguments v.tokens).1.filterMap Segment.ranges, insertionOffset v.start v.tokens⟩ := by
  have htarget : (v.call source lines).target.map Span.range = targetRange v.tokens :=
    map_range_targetSpan lines v.tokens
  have hvalues : (v.call source lines).keyValues.map KeyValue.ranges =
      (splitArguments v.tokens).1.filterMap Segment.ranges := by
    rw [Invocation.call_keyValues, List.map_filterMap]
    simp only [Segment.map_ranges_keyValue]
  have hinsert : (v.call source lines).insertAt.start = insertionOffset v.start v.tokens := by
    rw [Invocation.call_insertAt, insertionOffset, ← map_range_targetSpan lines]
    cases targetSpan lines (segmentsOf v.tokens) <;> rfl
  rw [Call.outline, htarget, hvalues, hinsert]

/-! ## Order of the arguments -/

/-- There is a target and the arguments are those behind it, or there is none and they are all. -/
theorem targetRange_cases (ts : List Token) :
    (targetRange ts = none ∧ argumentsOf ts = segmentsOf ts) ∨
      ∃ s r, segmentsOf ts = s :: argumentsOf ts ∧ s.terminator = some .comma ∧ s.range = some r ∧
        targetRange ts = some r := by
  unfold targetRange argumentsOf
  cases segmentsOf ts with
  | nil => exact Or.inl ⟨rfl, rfl⟩
  | cons s ss =>
    cases ht : s.isTarget with
    | false => exact Or.inl ⟨by simp [ht], by simp [ht]⟩
    | true =>
      cases hs : s.tokens with
      | nil => rw [Segment.isTarget, hs] at ht; cases ht
      | cons first rest =>
        have hr := Segment.range_cons hs
        exact Or.inr ⟨s, _, by simp [ht], s.terminator_of_isTarget ht, hr, by simp [ht, hr]⟩

/-- The tokens of the arguments come in the order of the tokens. -/
theorem TokensInOrder.segments (h : TokensInOrder lo hi ts) :
    ((segmentsOf ts).flatMap Segment.tokens).Pairwise fun t u => t.stop ≤ u.start := by
  rw [flatMap_tokens_segmentsOf]
  exact h.pairwise.sublist List.filter_sublist

theorem TokensInOrder.arguments (h : TokensInOrder lo hi ts) :
    ((argumentsOf ts).flatMap Segment.tokens).Pairwise fun t u => t.stop ≤ u.start := by
  have hall := h.segments
  rcases targetRange_cases ts with ⟨_, harguments⟩ | ⟨s, r, hseg, _⟩
  · rwa [harguments]
  · rw [hseg, List.flatMap_cons] at hall
    exact (List.pairwise_append.mp hall).2.1

/-- The range of an argument is that from its first token to its last, and all others are inside. -/
theorem Segment.range_spec (hs : s.tokens.Pairwise fun t u => t.stop ≤ u.start)
    (hne : ∀ t ∈ s.tokens, t.start < t.stop) {p q : Int} (h : s.range = some (p, q)) :
    (∃ t ∈ s.tokens, t.start = p) ∧ (∃ t ∈ s.tokens, t.stop = q) ∧ p < q ∧
      ∀ t ∈ s.tokens, p ≤ t.start ∧ t.stop ≤ q := by
  obtain ⟨first, last, hfirst, hlast, heq⟩ := Segment.range_eq_some.mp h
  obtain ⟨rfl, rfl⟩ := Prod.mk.inj heq
  obtain ⟨rest, hrest⟩ := List.head?_eq_some_iff.mp hfirst
  obtain ⟨front, hfront⟩ := List.getLast?_eq_some_iff.mp hlast
  have hmemFirst : first ∈ s.tokens := List.mem_of_mem_head? hfirst
  have hmemLast : last ∈ s.tokens := List.mem_of_mem_getLast? hlast
  have hafter : ∀ t ∈ s.tokens, first.start ≤ t.start := by
    intro t ht
    rw [hrest] at ht hs
    have := hne first hmemFirst
    rcases List.mem_cons.mp ht with rfl | ht
    · exact Int.le_refl _
    · have := (List.pairwise_cons.mp hs).1 t ht
      omega
  have hbefore : ∀ t ∈ s.tokens, t.stop ≤ last.stop := by
    intro t ht
    rw [hfront] at ht hs
    have := hne last hmemLast
    rcases List.mem_append.mp ht with ht | ht
    · have := (List.pairwise_append.mp hs).2.2 t ht last List.mem_cons_self
      omega
    · obtain rfl := List.mem_singleton.mp ht
      exact Int.le_refl _
  have hlt : first.start < last.stop := by
    have := hne last hmemLast
    have := hafter last hmemLast
    omega
  exact ⟨⟨first, hmemFirst, rfl⟩, ⟨last, hmemLast, rfl⟩, hlt, fun t ht => ⟨hafter t ht, hbefore t ht⟩⟩

/-- A value begins with a token behind the first one. -/
theorem Segment.valueStart_spec (hs : s.tokens.Pairwise fun t u => t.stop ≤ u.start) {p v : Int} {q : Int}
    (hr : s.range = some (p, q)) (h : s.valueStart = some v) :
    ∃ t ∈ s.tokens, t.start = v ∧ ∃ first ∈ s.tokens, first.start = p ∧ first.stop ≤ v := by
  obtain ⟨t, ht, rfl⟩ := Option.map_eq_some_iff.mp h
  obtain ⟨i, _, hi⟩ := Option.bind_eq_some_iff.mp ht
  obtain ⟨first, last, hfirst, _, heq⟩ := Segment.range_eq_some.mp hr
  obtain ⟨rfl, rfl⟩ := Prod.mk.inj heq
  obtain ⟨rest, hrest⟩ := List.head?_eq_some_iff.mp hfirst
  refine ⟨t, List.mem_of_getElem? hi, rfl, first, List.mem_of_mem_head? hfirst, rfl, ?_⟩
  rw [hrest, List.getElem?_cons_succ] at hi
  rw [hrest] at hs
  exact (List.pairwise_cons.mp hs).1 t (List.mem_of_getElem? hi)

/-- The first token of the first argument comes before all tokens of arguments. -/
theorem start_le_of_head {t : Token} (hall : ((argumentsOf ts).flatMap Segment.tokens).Pairwise
      fun t u => t.stop ≤ u.start) (hne : t.start < t.stop) {s : Segment} (hs : s ∈ (argumentsOf ts).head?)
    (ht : t ∈ s.tokens.head?) {s' : Segment} (hs' : s' ∈ argumentsOf ts) {u : Token} (hu : u ∈ s'.tokens) :
    t.start ≤ u.start := by
  obtain ⟨more, hmore⟩ := List.head?_eq_some_iff.mp hs
  obtain ⟨tail, htail⟩ := List.head?_eq_some_iff.mp ht
  have hu' : u ∈ (argumentsOf ts).flatMap Segment.tokens := List.mem_flatMap.mpr ⟨s', hs', hu⟩
  rw [hmore, List.flatMap_cons, htail, List.cons_append] at hall hu'
  rcases List.mem_cons.mp hu' with rfl | hu'
  · exact Int.le_refl _
  · have := (List.pairwise_cons.mp hall).1 u hu'
    omega

/-- A new argument goes behind the target and before all other arguments. -/
theorem insertionOffset_spec (h : TokensInOrder (start + 1) hi ts) :
    (start + 1 ≤ insertionOffset start ts ∧ insertionOffset start ts ≤ hi) ∧
      (∀ r ∈ targetRange ts, start + 1 ≤ r.1 ∧ r.1 < r.2 ∧ r.2 ≤ insertionOffset start ts) ∧
      ∀ s ∈ argumentsOf ts, ∀ t ∈ s.tokens, insertionOffset start ts ≤ t.start := by
  have hle := h.le
  rcases targetRange_cases ts with ⟨hnone, _⟩ | ⟨target, r, hseg, _, hr, hsome⟩
  · have hoffset : insertionOffset start ts = start + 1 := by rw [insertionOffset, hnone]
    rw [hoffset, hnone]
    refine ⟨⟨Int.le_refl _, hle⟩, fun r hr => (nomatch hr), fun s hs t ht => ?_⟩
    exact (h.mem (mem_of_mem_argumentsOf hs ht)).1
  · have hall := h.segments
    rw [hseg, List.flatMap_cons, List.pairwise_append] at hall
    obtain ⟨htarget, hrest, hcross⟩ := hall
    have hmem : ∀ t ∈ target.tokens, t ∈ ts := fun t ht =>
      mem_of_mem_segmentsOf (hseg ▸ List.mem_cons_self) ht
    obtain ⟨⟨first, hfirst, hp⟩, ⟨last, hlast, hq⟩, hlt, _⟩ :=
      Segment.range_spec htarget (fun t ht => (h.mem (hmem t ht)).2.1) (p := r.1) (q := r.2) hr
    have hfirst := h.mem (hmem first hfirst)
    have hlast' := h.mem (hmem last hlast)
    have hlater : ∀ s ∈ argumentsOf ts, ∀ t ∈ s.tokens, r.2 ≤ t.start := by
      intro s hs t ht
      rw [← hq]
      exact hcross last hlast t (List.mem_flatMap.mpr ⟨s, hs, ht⟩)
    have hoffset : insertionOffset start ts =
        (((argumentsOf ts).head?.bind fun s => s.tokens.head?).map Token.start).getD r.2 := by
      rw [insertionOffset, hsome]
    rw [hsome]
    cases hhead : (argumentsOf ts).head?.bind fun s => s.tokens.head? with
    | none =>
      rw [hhead, Option.map_none, Option.getD_none] at hoffset
      rw [hoffset]
      refine ⟨by omega, fun r' hr' => ?_, hlater⟩
      obtain rfl := Option.some.inj hr'
      omega
    | some t =>
      rw [hhead, Option.map_some, Option.getD_some] at hoffset
      rw [hoffset]
      obtain ⟨s, hs, ht⟩ := Option.bind_eq_some_iff.mp hhead
      have hsmem := List.mem_of_mem_head? hs
      have htmem := List.mem_of_mem_head? ht
      have hb := h.mem (mem_of_mem_argumentsOf hsmem htmem)
      have hbehind := hlater s hsmem t htmem
      refine ⟨by omega, fun r' hr' => ?_, fun s' hs' u hu => start_le_of_head hrest hb.2.1 hs ht hs' hu⟩
      obtain rfl := Option.some.inj hr'
      omega

/-! ## The layout -/

/-- The tokens of two arguments, one behind the other, come one behind the other. -/
theorem TokensInOrder.crossing (h : TokensInOrder lo hi ts) :
    (argumentsOf ts).Pairwise fun s r => ∀ t ∈ s.tokens, ∀ u ∈ r.tokens, t.stop ≤ u.start :=
  (List.pairwise_flatMap.mp h.arguments).2

theorem Segment.ranges_of_keyValue {kv : KeyValue} (h : s.keyValue source lines = some kv) :
    s.ranges = some kv.ranges := by
  rw [← Segment.map_ranges_keyValue source lines, h]
  rfl

theorem mem_argumentsOf_of_keyed (h : s ∈ (splitArguments ts).1) : s ∈ argumentsOf ts := by
  rw [← splitArguments_append]
  exact List.mem_append_left _ h

/-- A key-value argument of a call is that of an argument before the semicolon. -/
theorem Invocation.call_keyValue {v : Invocation} {kv : KeyValue} (h : kv ∈ (v.call source lines).keyValues) :
    ∃ s ∈ (splitArguments v.tokens).1, s.keyValue source lines = some kv ∧ s.ranges = some kv.ranges := by
  rw [Invocation.call_keyValues] at h
  obtain ⟨s, hs, hkv⟩ := List.mem_filterMap.mp h
  exact ⟨s, hs, hkv, Segment.ranges_of_keyValue hkv⟩

/-- The message of a call is the contents of a token in the first argument that is not keyed. -/
theorem Invocation.message_token {v : Invocation} {m : Message} (h : m ∈ (v.call source lines).message) :
    ∃ s t, s ∈ (splitArguments v.tokens).2 ∧ s ∈ argumentsOf v.tokens ∧ t ∈ s.tokens ∧ t ∈ v.tokens ∧
      t.contentRange = some m.span.range := by
  rw [Invocation.call_message, Option.mem_def, Option.bind_eq_some_iff] at h
  obtain ⟨t, ht, hm⟩ := h
  obtain ⟨r, hr, rfl⟩ := Option.map_eq_some_iff.mp hm
  obtain ⟨s, rest, hrest, hts, _⟩ := messageToken_head ht
  have hs : s ∈ (splitArguments v.tokens).2 := hrest ▸ List.mem_cons_self
  have hmem : s ∈ argumentsOf v.tokens := by
    rw [← splitArguments_append]
    exact List.mem_append_right _ hs
  exact ⟨s, t, hs, hmem, hts, mem_of_mem_argumentsOf hmem hts, hr⟩

/-- The ranges of a key-value argument, by tokens of the argument. -/
theorem TokensInOrder.keyValue (h : TokensInOrder lo hi ts) (hs : s ∈ argumentsOf ts) {kv : KeyValue}
    (hkv : s.ranges = some kv.ranges) :
    (∃ t ∈ s.tokens, t.start = kv.span.start) ∧ (∃ t ∈ s.tokens, t.stop = kv.span.stop) ∧
      kv.span.start < kv.span.stop ∧ ∀ v ∈ kv.value,
        kv.span.start < v.start ∧ v.start < v.stop ∧ v.stop = kv.span.stop := by
  have hpairwise := (List.pairwise_flatMap.mp h.arguments).1 s hs
  have hne : ∀ t ∈ s.tokens, t.start < t.stop := fun t ht => (h.mem (mem_of_mem_argumentsOf hs ht)).2.1
  obtain ⟨⟨p, q⟩, hr, heq⟩ := Option.map_eq_some_iff.mp hkv
  obtain ⟨hspan, hvalue⟩ := Prod.mk.inj heq
  obtain ⟨rfl, rfl⟩ := Prod.mk.inj hspan
  obtain ⟨hfirst, hlast, hlt, hall⟩ := Segment.range_spec hpairwise hne hr
  refine ⟨hfirst, hlast, hlt, fun v hv => ?_⟩
  rw [Option.mem_def.mp hv, Option.map_some] at hvalue
  obtain ⟨p, hp, hpv⟩ := Option.map_eq_some_iff.mp hvalue
  obtain ⟨rfl, hstop⟩ := Prod.mk.inj hpv
  obtain ⟨t, ht, hts, first, hfirstMem, hfirstStart, hfirstStop⟩ := Segment.valueStart_spec hpairwise hr hp
  have := hne t ht
  have := hne first hfirstMem
  have := hall t ht
  exact ⟨by omega, by omega, hstop.symm⟩

/-- The call of tokens that come in order inside of a bracketed tree is laid out. -/
theorem Invocation.call_laidOut {v : Invocation} (h : TokensInOrder (v.start + 1) hi v.tokens)
    (hcovers : ∀ t ∈ v.tokens, t.Covers source) : (v.call source lines).LaidOut source (v.start + 1) hi := by
  obtain ⟨hinsert, htarget, harguments⟩ := insertionOffset_spec h
  have houtline := v.call_outline source lines
  rw [Call.outline, Outline.mk.injEq] at houtline
  obtain ⟨htargetEq, _, hinsertEq⟩ := houtline
  rw [← hinsertEq] at hinsert htarget harguments
  have hcross := h.crossing
  rw [← splitArguments_append, List.pairwise_append] at hcross
  refine ⟨⟨hinsert.1, rfl, hinsert.2⟩, fun t ht => ?_, fun kv hkv => ?_, ?_, fun kv hkv => ?_, fun m hm => ?_,
    fun m hm kv hkv => ?_, fun m hm => ?_⟩
  · refine htarget t.range ?_
    rw [← htargetEq, Option.mem_def.mp ht]
    rfl
  · obtain ⟨s, hs, _, hranges⟩ := Invocation.call_keyValue hkv
    have hs := mem_argumentsOf_of_keyed hs
    obtain ⟨⟨first, hfirst, hstart⟩, ⟨last, hlast, hstop⟩, hlt, _⟩ := h.keyValue hs hranges
    have := harguments s hs first hfirst
    have := h.mem (mem_of_mem_argumentsOf hs hlast)
    omega
  · rw [Invocation.call_keyValues, List.pairwise_filterMap]
    refine hcross.1.imp_of_mem fun {s r} hs hr happart a ha b hb => ?_
    obtain ⟨_, ⟨last, hlast, hstop⟩, _⟩ :=
      h.keyValue (mem_argumentsOf_of_keyed hs) (Segment.ranges_of_keyValue ha)
    obtain ⟨⟨first, hfirst, hstart⟩, _⟩ :=
      h.keyValue (mem_argumentsOf_of_keyed hr) (Segment.ranges_of_keyValue hb)
    rw [← hstop, ← hstart]
    exact happart last hlast first hfirst
  · obtain ⟨s, hs, _, hranges⟩ := Invocation.call_keyValue hkv
    exact (h.keyValue (mem_argumentsOf_of_keyed hs) hranges).2.2.2
  · obtain ⟨s, t, _, hs, hts, ht, hrange⟩ := Invocation.message_token hm
    obtain ⟨hstart, hle, hstop, _⟩ := (hcovers t ht).quotes hrange
    have := harguments s hs t hts
    have := h.mem ht
    omega
  · obtain ⟨s, t, hs, _, hts, ht, hrange⟩ := Invocation.message_token hm
    obtain ⟨r, hr, _, hranges⟩ := Invocation.call_keyValue hkv
    obtain ⟨_, ⟨last, hlast, hstop⟩, _⟩ := h.keyValue (mem_argumentsOf_of_keyed hr) hranges
    have hbefore := hcross.2.2 r hr s hs last hlast t hts
    have := (hcovers t ht).quotes hrange
    omega
  · obtain ⟨_, t, _, _, _, ht, hrange⟩ := Invocation.message_token hm
    exact ((hcovers t ht).quotes hrange).2.2.2

namespace Node

variable {n : Node}

theorem ArgumentTree.forward (h : n.ArgumentTree source) : Forward n.children :=
  fun _ hc hnamed => (h.ordered.mem (List.mem_filter.mpr ⟨hc, hnamed⟩)).2.1

/-- The closing bracket is a byte of the source. -/
theorem Bracketed.within (h : Bracketed source start hi) (h0 : 0 ≤ start) : hi ≤ source.length := by
  have hroom := h.room
  have hcloser := h.closer
  rw [Bytes.slice_eq (by omega) (by omega)] at hcloser
  refine Int.not_lt.mp fun hlt => ?_
  have hnil : (source.take hi.toNat).drop (hi - 1).toNat = [] := by
    refine List.drop_eq_nil_of_le ?_
    rw [List.length_take]
    omega
  rw [hnil] at hcloser
  cases hcloser

theorem Bracketed.innerStart_eq (h : Bracketed source n.start n.stop) (hk : n.kind = .tokenTree) :
    innerStart source n.kind n.start = n.start + 1 :=
  if_pos ⟨hk, h.opener⟩

theorem Bracketed.innerStop_eq (h : Bracketed source n.start n.stop) (hk : n.kind = .tokenTree) :
    innerStop source n.kind n.start n.stop = n.stop - 1 := by
  have hroom := h.room
  unfold innerStop
  rw [h.innerStart_eq hk]
  exact if_pos ⟨hk, by omega, h.closer⟩

/-- The tokens of a bracketed tree and its comments tile what is between the brackets. -/
theorem Bracketed.tiled (h : Bracketed source n.start n.stop) (hk : n.kind = .tokenTree) (h0 : 0 ≤ n.start)
    (hforward : Forward n.children) :
    Tiled source (n.start + 1) (n.stop - 1) ((n.forest source).map Part.token) (n.kept source) := by
  have hroom := h.room
  have h1 := h.within h0
  rw [forest_eq, kept, h.innerStart_eq hk, h.innerStop_eq hk]
  exact forestAmong_tiled hforward (by omega) (by omega) (by omega)

theorem ArgumentTree.tiled (h : n.ArgumentTree source) :
    Tiled source (n.start + 1) (n.stop - 1) ((n.forest source).map Part.token) (n.kept source) :=
  h.bracketed.tiled h.kind h.nonneg h.forward

theorem ArgumentTree.tokens_eq (h : n.ArgumentTree source) :
    n.tokens source = .ok ((n.forest source).map Part.token) :=
  Node.tokens_eq h.nonneg (h.bracketed.within h.nonneg) h.forward

end Node

/-- The call of a macro with a bracketed argument tree is built, and its parts come in order between the
brackets. -/
theorem callWith_laid_out (source : Bytes) (lines : List Nat) (name : String) (nameStart nameStop : Int)
    (tree : Node) (h : tree.ArgumentTree source) :
    ∃ call, callWith source lines name nameStart nameStop tree = .ok call ∧
      call.LaidOut source (tree.start + 1) (tree.stop - 1) := by
  have htiled := h.tiled
  refine ⟨_, callWith_eq h.tokens_eq name nameStart nameStop, ?_⟩
  refine Invocation.call_laidOut (v := ⟨name, nameStart, nameStop, tree.start, tree.stop, _⟩) ?_ ?_
  · exact htiled.inOrder
  · exact htiled.covers

/-- The tree of `(target: a, k = 1, r; "m")`. -/
def targetedTree : Node :=
  .mk .tokenTree 0 26 true false false
    [.mk .other 0 1 false false false [], .mk .identifier 1 7 true false false [],
      .mk .identifier 9 10 true false false [], .mk .identifier 12 13 true false false [],
      .mk .other 16 17 true false false [], .mk .identifier 19 20 true false false [],
      .mk .stringLiteral 22 25 true false false [], .mk .other 25 26 false false false []]

theorem targeted_call_laid_out :
    targetedTree.ArgumentTree (Bytes.ofString "(target: a, k = 1, r; \"m\")") ∧
      ∃ call, callWith (Bytes.ofString "(target: a, k = 1, r; \"m\")") [0] "m" 0 0 targetedTree = .ok call ∧
        call.LaidOut (Bytes.ofString "(target: a, k = 1, r; \"m\")") 1 25 ∧
        call.outline = ⟨some (1, 10), [((12, 17), some (16, 17)), ((19, 20), none)], 12⟩ ∧
        call.message.map (·.span.range) = some (23, 24) := by
  have htree : targetedTree.ArgumentTree (Bytes.ofString "(target: a, k = 1, r; \"m\")") := by decide +kernel
  obtain ⟨call, hcall, hlaid⟩ := callWith_laid_out _ [0] "m" 0 0 targetedTree htree
  have hparts : (callWith (Bytes.ofString "(target: a, k = 1, r; \"m\")") [0] "m" 0 0 targetedTree).toOption.map
      (fun c => (c.outline, c.message.map (·.span.range))) =
        some (⟨some (1, 10), [((12, 17), some (16, 17)), ((19, 20), none)], 12⟩, some (23, 24)) := by
    decide +kernel
  rw [hcall] at hparts
  obtain ⟨houtline, hmessage⟩ := Prod.mk.inj (Option.some.inj hparts)
  exact ⟨htree, call, hcall, hlaid, houtline, hmessage⟩

end

end LogRef
