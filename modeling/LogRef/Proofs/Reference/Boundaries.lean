import LogRef.Proofs.Reference.ArgumentRoundTrip
import LogRef.Proofs.Syntax.CallLayout

/-!
# Entries between characters

Every place that a call has for a reference is between two characters of the source, though tokens may begin and end
inside of one: next to each of these places there is a byte below 128, or a comment begins or ends there.
-/
namespace LogRef

/-- An offset between two characters, before the first or behind the last. -/
def IsBoundary (code : List Char) (p : Int) : Prop := ∃ i, i ≤ code.length ∧ (byteOffset code i : Int) = p

instance (code : List Char) (p : Int) : Decidable (IsBoundary code p) :=
  decidable_of_iff (∃ i, i < code.length + 1 ∧ (byteOffset code i : Int) = p)
    ⟨fun ⟨i, hi, hp⟩ => ⟨i, Nat.le_of_lt_succ hi, hp⟩, fun ⟨i, hi, hp⟩ => ⟨i, Nat.lt_succ_of_le hi, hp⟩⟩

namespace Node

/-- Something holds of a node and of all nodes below it. -/
inductive All (P : Node → Prop) : Node → Prop
  | mk {n : Node} (here : P n) (below : ∀ c ∈ n.children, All P c) : All P n

/-- The children of a node come in order inside of it, it has its brackets if it is a bracketed tree, and it begins and
ends between characters. -/
structure Seated (source : Bytes) (code : List Char) (n : Node) : Prop where
  ordered : InOrder n.start n.stop n.children
  bracketed : n.kind = .tokenTree → Bracketed source n.start n.stop
  begins : IsBoundary code n.start
  ends : IsBoundary code n.stop

instance (source : Bytes) (code : List Char) (n : Node) : Decidable (n.Seated source code) :=
  decidable_of_iff (InOrder n.start n.stop n.children ∧ (n.kind = .tokenTree → Bracketed source n.start n.stop) ∧
      IsBoundary code n.start ∧ IsBoundary code n.stop)
    ⟨fun ⟨h1, h2, h3, h4⟩ => ⟨h1, h2, h3, h4⟩, fun ⟨h1, h2, h3, h4⟩ => ⟨h1, h2, h3, h4⟩⟩

mutual

instance decidableAll (P : Node → Prop) [DecidablePred P] : (n : Node) → Decidable (n.All P)
  | .mk kind start stop isNamed hasError isMacroName children =>
    have := decidableAllAmong P children
    decidable_of_iff (P (.mk kind start stop isNamed hasError isMacroName children) ∧ ∀ c ∈ children, All P c)
      ⟨fun ⟨h1, h2⟩ => .mk h1 h2, fun h => by cases h with | mk h1 h2 => exact ⟨h1, h2⟩⟩

def decidableAllAmong (P : Node → Prop) [DecidablePred P] : (ns : List Node) → Decidable (∀ c ∈ ns, All P c)
  | [] => isTrue fun _ hc => (List.not_mem_nil hc).elim
  | n :: rest =>
    have := decidableAll P n
    have := decidableAllAmong P rest
    decidable_of_iff (n.All P ∧ ∀ c ∈ rest, All P c) List.forall_mem_cons.symm

end

variable {P : Node → Prop} {n c : Node}

theorem All.here (h : n.All P) : P n := by
  cases h; assumption

theorem All.child (h : n.All P) (hc : c ∈ n.children) : c.All P := by
  cases h with
  | mk _ hb => exact hb c hc

end Node

section

variable {source : Bytes} {code : List Char} {lo hi : Int} {ts front rest : List Token} {cs : List Node} {t u : Token}

/-! ## Next to a byte below 128 -/

/-- A byte below 128 has a boundary on each side. -/
theorem isBoundary_of_ascii (hcode : Utf8.decode source = .ok code) {p : Int} (hp : 0 ≤ p) {b : UInt8}
    (hb : source[p.toNat]? = some b) (hascii : b.toNat < 0x80) : IsBoundary code p ∧ IsBoundary code (p + 1) := by
  rw [← Utf8.encode_of_decode hcode] at hb
  obtain ⟨i, c, hc, _, hi, hnext⟩ := char_of_ascii hb hascii
  have hlt := (List.getElem?_eq_some_iff.mp hc).1
  exact ⟨⟨i, Nat.le_of_lt hlt, by omega⟩, ⟨i + 1, hlt, by omega⟩⟩

theorem toNat_of_isSpaceByte {b : UInt8} (h : isSpaceByte b = true) : b.toNat < 0x80 := by
  simp only [isSpaceByte, Bool.or_eq_true, beq_iff_eq, Bool.and_eq_true, decide_eq_true_eq,
    UInt8.le_iff_toNat_le] at h
  rcases h with rfl | ⟨_, hle⟩
  · decide
  · exact Nat.lt_of_le_of_lt hle (by decide)

/-- Punctuation below 128 begins and ends between characters. -/
theorem Token.Covers.isBoundary (hcode : Utf8.decode source = .ok code) (hc : t.Covers source) {c : Char}
    (h : t.isPunct c = true) (hascii : (asciiByte c).toNat < 0x80) :
    IsBoundary code t.start ∧ IsBoundary code t.stop := by
  obtain ⟨hstop, hbyte⟩ := hc.punct h
  rw [hstop]
  exact isBoundary_of_ascii hcode hc.nonneg hbyte hascii

theorem Token.Covers.isBoundary_separator (hcode : Utf8.decode source = .ok code) (hc : t.Covers source)
    (h : t.separator?.isSome = true) : IsBoundary code t.start ∧ IsBoundary code t.stop := by
  obtain ⟨sep, hsep⟩ := Option.isSome_iff_exists.mp h
  rcases Token.isPunct_of_separator hsep with ⟨_, hpunct⟩ | ⟨_, hpunct⟩
  · exact hc.isBoundary hcode hpunct (by decide)
  · exact hc.isBoundary hcode hpunct (by decide)

theorem Node.Bracketed.isBoundary (hcode : Utf8.decode source = .ok code) (h : Bracketed source lo hi)
    (h0 : 0 ≤ lo) : IsBoundary code (lo + 1) := by
  have hopener := h.opener
  have hbyte {b : UInt8} (hb : source.slice lo (lo + 1) = [b]) : source[lo.toNat]? = some b :=
    Bytes.getElem?_of_slice (k := 0) (b := lo + 1) h0 (by omega) (by rw [hb]; rfl)
  rw [isOpener, Bool.or_eq_true, Bool.or_eq_true, beq_iff_eq, beq_iff_eq, beq_iff_eq] at hopener
  rcases hopener with (hb | hb) | hb
  · exact (isBoundary_of_ascii hcode h0 (hbyte hb) (by decide)).2
  · exact (isBoundary_of_ascii hcode h0 (hbyte hb) (by decide)).2
  · exact (isBoundary_of_ascii hcode h0 (hbyte hb) (by decide)).2

/-! ## Next to another token -/

variable {start : Int}

/-- The tokens behind an opening bracket, with comments between them that begin and end between characters. -/
structure Settled (source : Bytes) (code : List Char) (start hi : Int) (tokens : List Token) (nodes : List Node) :
    Prop where
  decoded : Utf8.decode source = .ok code
  nonneg : 0 ≤ start
  tiled : Tiled source (start + 1) hi tokens nodes
  comments : ∀ c ∈ nodes, c.kind = .comment → IsBoundary code c.start ∧ IsBoundary code c.stop
  opener : IsBoundary code (start + 1)

/-- Of tokens in order, only the last ends where all of them have to. -/
theorem TokensInOrder.getLast?_of_stop (h : TokensInOrder lo hi ts) (ht : t ∈ ts) (hstop : t.stop = hi) :
    ts.getLast? = some t := by
  induction ts generalizing lo with
  | nil => cases ht
  | cons u rest ih =>
    obtain ⟨_, _, hrest⟩ := h
    cases rest with
    | nil =>
      obtain rfl := List.mem_singleton.mp ht
      rfl
    | cons w rest =>
      rw [List.getLast?_cons_cons]
      rcases List.mem_cons.mp ht with rfl | ht
      · have := hrest.mem List.mem_cons_self
        omega
      · exact ih hrest ht

/-- A token begins between characters if the one before it ends so. -/
theorem Settled.isBoundary_start (h : Settled source code start hi (front ++ t :: rest) cs)
    (hfront : ∀ u ∈ front.getLast?, IsBoundary code u.stop) : IsBoundary code t.start := by
  have h0 := h.nonneg
  have ht : t ∈ front ++ t :: rest := List.mem_append_right front List.mem_cons_self
  rcases Int.lt_or_eq_of_le (h.tiled.inOrder.mem ht).1 with hlt | heq
  · rcases h.tiled.before ht hlt with ⟨b, hbyte, hs⟩ | ⟨u, hu, hstop⟩ | ⟨c, hc, hk, hstop⟩
    · have hboundary := (isBoundary_of_ascii h.decoded (by omega) hbyte (toNat_of_isSpaceByte hs)).2
      rwa [Int.sub_add_cancel] at hboundary
    · -- the token that ends there is the last before it
      obtain ⟨hbefore, hbehind⟩ := h.tiled.inOrder.of_append_cons
      have hufront : u ∈ front := by
        refine (List.mem_append.mp hu).resolve_right fun hu => ?_
        have := hbehind.mem hu
        omega
      exact hstop ▸ hfront u (hbefore.getLast?_of_stop hufront hstop)
    · exact hstop ▸ (h.comments c hc hk).2
  · exact heq ▸ h.opener

/-- A token ends between characters if the next one begins so. -/
theorem Settled.isBoundary_stop (h : Settled source code start hi (front ++ t :: u :: rest) cs)
    (hu : IsBoundary code u.start) : IsBoundary code t.stop := by
  have h0 := h.nonneg
  have ht : t ∈ front ++ t :: u :: rest := List.mem_append_right front List.mem_cons_self
  have hrange := h.tiled.inOrder.mem ht
  obtain ⟨hbefore, _, _, hle, hlt, hbehind⟩ := h.tiled.inOrder.of_append_cons
  have hend := hbehind.le
  rcases h.tiled.behind ht (by omega) with ⟨b, hbyte, hs⟩ | ⟨w, hw, hstart⟩ | ⟨c, hc, hk, hstart⟩
  · exact (isBoundary_of_ascii h.decoded (by omega) hbyte (toNat_of_isSpaceByte hs)).1
  · -- the token that begins there is the next one
    rcases List.mem_append.mp hw with hw | hw
    · have := hbefore.mem hw
      omega
    · rcases List.mem_cons.mp hw with rfl | hw
      · omega
      · rcases List.mem_cons.mp hw with rfl | hw
        · exact hstart ▸ hu
        · have := hbehind.mem hw
          omega
  · exact hstart ▸ (h.comments c hc hk).1

/-! ## The places of a call -/

theorem assignmentFrom_spec {index i : Nat} {before : Option Token} (h : assignmentFrom index before ts = some i) :
    ∃ front t rest, ts = front ++ t :: rest ∧ index + front.length = i ∧ t.isPunct '=' = true := by
  induction ts generalizing index before with
  | nil => cases h
  | cons t ts ih =>
    rw [assignmentFrom] at h
    split at h
    · next hassign =>
      rw [Bool.and_eq_true, Bool.and_eq_true] at hassign
      exact ⟨[], t, ts, rfl, Option.some.inj h, hassign.1.1⟩
    · obtain ⟨front, u, rest, rfl, hlen, hu⟩ := ih h
      refine ⟨t :: front, u, rest, rfl, ?_, hu⟩
      rw [List.length_cons]
      omega

/-- The value of an argument begins with the token behind the `=`. -/
theorem Segment.valueStart_split {s : Segment} {p : Int} (h : s.valueStart = some p) :
    ∃ front assign t rest, s.tokens = front ++ assign :: t :: rest ∧ assign.isPunct '=' = true ∧ t.start = p := by
  obtain ⟨t, ht, rfl⟩ := Option.map_eq_some_iff.mp h
  obtain ⟨i, hi, hnext⟩ := Option.bind_eq_some_iff.mp ht
  obtain ⟨front, assign, rest, htokens, hlen, hassign⟩ := assignmentFrom_spec hi
  rw [htokens, ← hlen, Nat.zero_add, List.getElem?_append_right (Nat.le_add_right _ 1), Nat.add_sub_cancel_left,
    List.getElem?_cons_succ] at hnext
  cases rest with
  | nil => cases hnext
  | cons u rest =>
    obtain rfl := Option.some.inj hnext
    exact ⟨front, assign, u, rest, htokens, hassign, rfl⟩

theorem segmentsOf_of_mem_argumentsOf {s : Segment} (h : s ∈ argumentsOf ts) :
    ∃ more back, segmentsOf ts = more ++ s :: back := by
  rcases targetRange_cases ts with ⟨_, harguments⟩ | ⟨target, _, hseg, _⟩
  · exact List.append_of_mem (harguments ▸ h)
  · rw [hseg]
    exact List.append_of_mem (List.mem_cons_of_mem target h)

namespace Settled

variable (h : Settled source code start hi ts cs)
include h

/-- An argument begins between characters. -/
theorem isBoundary_first {s : Segment} {more back : List Segment} (hs : segmentsOf ts = more ++ s :: back)
    (ht : s.tokens.head? = some t) : IsBoundary code t.start := by
  obtain ⟨a, b, rfl, hclosed, _⟩ := segmentsOf_split hs
  obtain ⟨tail, htail⟩ := List.head?_eq_some_iff.mp ht
  rw [htail, List.cons_append] at h
  refine h.isBoundary_start fun u hu => ?_
  have hcovers := h.tiled.covers u (List.mem_append_left _ (List.mem_of_mem_getLast? hu))
  exact (hcovers.isBoundary_separator h.decoded (hclosed u hu)).2

/-- A value begins between characters. -/
theorem isBoundary_value {s : Segment} {more back : List Segment} (hs : segmentsOf ts = more ++ s :: back) {p : Int}
    (hp : s.valueStart = some p) : IsBoundary code p := by
  obtain ⟨a, b, rfl, _, _⟩ := segmentsOf_split hs
  obtain ⟨front, assign, t, rest, htokens, hassign, rfl⟩ := Segment.valueStart_split hp
  have hsplit : a ++ (s.tokens ++ b) = (a ++ (front ++ [assign])) ++ t :: (rest ++ b) := by rw [htokens]; simp
  rw [hsplit] at h
  refine h.isBoundary_start fun u hu => ?_
  obtain rfl : assign = u := by simpa using hu
  exact ((h.tiled.covers assign (by simp)).isBoundary h.decoded hassign (by decide)).2

/-- A target ends between characters, before its comma. -/
theorem isBoundary_target {s : Segment} {back : List Segment} (hs : segmentsOf ts = s :: back)
    (hcomma : s.terminator = some .comma) {r : Int × Int} (hr : s.range = some r) : IsBoundary code r.2 := by
  obtain ⟨comma, rest, rfl, hsep, _⟩ := segmentsOf_head hs hcomma
  obtain ⟨_, last, _, hlast, rfl⟩ := Segment.range_eq_some.mp hr
  obtain ⟨front, hfront⟩ := List.getLast?_eq_some_iff.mp hlast
  rw [hfront, List.append_assoc, List.singleton_append] at h
  have hcovers := h.tiled.covers comma (by simp)
  exact h.isBoundary_stop (hcovers.isBoundary_separator h.decoded (by rw [hsep]; rfl)).1

/-- A new argument goes between characters. -/
theorem isBoundary_insertion : IsBoundary code (insertionOffset start ts) := by
  unfold insertionOffset
  rcases targetRange_cases ts with ⟨hnone, _⟩ | ⟨target, r, hseg, hcomma, hr, hsome⟩
  · rw [hnone]
    exact h.opener
  · rw [hsome]
    simp only
    cases hhead : (argumentsOf ts).head?.bind fun s => s.tokens.head? with
    | none => exact h.isBoundary_target hseg hcomma hr
    | some t =>
      obtain ⟨s, hs, ht⟩ := Option.bind_eq_some_iff.mp hhead
      obtain ⟨back, hback⟩ := List.head?_eq_some_iff.mp hs
      have hsplit : segmentsOf ts = [target] ++ s :: back := by rw [hseg, hback]; rfl
      exact h.isBoundary_first hsplit ht

end Settled

namespace Settled

variable {v : Invocation} (h : Settled source code v.start hi v.tokens cs) (lines : List Nat)
include h

theorem isBoundary_insertAt : IsBoundary code (v.call source lines).insertAt.start := by
  have houtline := v.call_outline source lines
  rw [Call.outline, Outline.mk.injEq] at houtline
  obtain ⟨_, _, hinsert⟩ := houtline
  exact hinsert ▸ h.isBoundary_insertion

theorem isBoundary_message : ∀ m ∈ (v.call source lines).message, IsBoundary code m.span.start := by
  intro m hm
  rw [Invocation.call_message, Option.mem_def, Option.bind_eq_some_iff] at hm
  obtain ⟨t, ht, hm⟩ := hm
  obtain ⟨⟨p, q⟩, hr, rfl⟩ := Option.map_eq_some_iff.mp hm
  have hcovers := h.tiled.covers t (mem_of_messageToken ht).1
  obtain ⟨hstart, _, _, hquote, _⟩ := hcovers.quotes hr
  have h0 := hcovers.nonneg
  have hboundary := (isBoundary_of_ascii h.decoded (by omega) hquote (by decide)).2
  rwa [Int.sub_add_cancel] at hboundary

theorem isBoundary_keyValue :
    ∀ kv ∈ (v.call source lines).keyValues, IsBoundary code (kv.value.getD kv.span).start := by
  intro kv hkv
  obtain ⟨s, hs, _, hranges⟩ := Invocation.call_keyValue hkv
  have hargument : s ∈ argumentsOf v.tokens := by
    rw [← splitArguments_append]
    exact List.mem_append_left _ hs
  obtain ⟨more, back, hsplit⟩ := segmentsOf_of_mem_argumentsOf hargument
  obtain ⟨r, hr, heq⟩ := Option.map_eq_some_iff.mp hranges
  obtain ⟨hspan, hvalue⟩ := Prod.mk.inj heq
  cases hkvValue : kv.value with
  | none =>
    obtain ⟨first, _, hfirst, _, hp⟩ := Segment.range_eq_some.mp hr
    have hstart : kv.span.start = first.start := (Prod.mk.inj (hspan.symm.trans hp)).1
    rw [Option.getD_none, hstart]
    exact h.isBoundary_first hsplit hfirst
  | some w =>
    rw [hkvValue, Option.map_some] at hvalue
    obtain ⟨p, hp, hw⟩ := Option.map_eq_some_iff.mp hvalue
    rw [Option.getD_some, ← (Prod.mk.inj hw).1]
    exact h.isBoundary_value hsplit hp

end Settled

/-! ## Entries -/

variable {query : Query} {n : Node} {v : Invocation} {entry : Entry}

theorem IsBoundary.bounds (hcode : Utf8.decode source = .ok code) {p : Int} (h : IsBoundary code p) :
    0 ≤ p ∧ p ≤ source.length := by
  obtain ⟨i, hi, rfl⟩ := h
  have hle := byteOffset_mono code hi
  have hall : byteOffset code code.length = source.length := by
    rw [byteOffset, List.take_length, Utf8.encode_of_decode hcode]
  omega

theorem Node.All.inRange (hcode : Utf8.decode source = .ok code) (h : n.All (Node.Seated source code))
    (inTree : Bool) : n.InRange source.length inTree := by
  induction h generalizing inTree with
  | @mk n hseated _ ih =>
    have hstart := hseated.begins.bounds hcode
    have hstop := hseated.ends.bounds hcode
    have hle := hseated.ordered.le
    cases n with
    | mk kind start stop isNamed hasError isMacroName children =>
      rw [InRange]
      exact ⟨⟨hstart.1, hle, hstop.2⟩, fun _ => allInRange_of_forall fun c hc => ih c hc _⟩

/-- The argument tree of an invocation is one of the nodes, and so are the comments in it. -/
theorem Node.All.settled (hcode : Utf8.decode source = .ok code) (h : n.All (Node.Seated source code))
    (hv : v ∈ n.invocations source) : ∃ m : Node,
      Settled source code v.start (v.stop - 1) v.tokens (m.kept source) := by
  obtain ⟨m, hm, hk, hstart, hstop, htokens⟩ :=
    exists_tree_of_mem (P := Node.All (Node.Seated source code)) (fun _ _ h hc => h.child hc) n h v hv
  have hseated := hm.here
  have hbracketed := hseated.bracketed hk
  have h0 := (hseated.begins.bounds hcode).1
  have hforward : Forward m.children := fun c hc _ => (hseated.ordered.mem hc).2.1
  rw [hstart, hstop, htokens]
  refine ⟨m, hcode, h0, hbracketed.tiled hk h0 hforward, fun c hc _ => ?_, hbracketed.isBoundary hcode h0⟩
  have hmem : c ∈ m.children := (keptFrom_sublist _ _ _).subset hc
  exact ⟨(hm.child hmem).here.begins, (hm.child hmem).here.ends⟩

theorem givenEntry_position {call : Call} {kv : KeyValue} (h : givenEntry call kv = .ok entry) :
    entry.position = (kv.value.getD kv.span).position := by
  unfold givenEntry at h
  cases hid : readId (Text.trim kv.valueText.toList) with
  | error e => rw [hid] at h; cases h
  | ok id => rw [hid] at h; cases h; rfl

/-- The entry of a call is at one of its places. -/
theorem Settled.entryOf (h : Settled source code v.start hi v.tokens cs)
    (hread : v.read query code source = .ok (v.entryOf query code source))
    (hentry : v.entryOf query code source = some entry) : IsBoundary code entry.position.offset := by
  cases hr : query.reading code (v.call source (byteLineStarts source)) with
  | nothing =>
    rw [Invocation.entryOf_nothing hr] at hentry
    cases hentry
  | message =>
    rw [Invocation.entryOf_message hr, messageEntry_eq] at hentry
    obtain ⟨m, hm, rfl⟩ := Option.map_eq_some_iff.mp hentry
    exact h.isBoundary_message _ m hm
  | argument =>
    have hargument := Invocation.argumentEntry_of_read hr hread
    rw [hentry] at hargument
    obtain ⟨_, ⟨kv, hfind, hgiven⟩ | ⟨_, rfl⟩⟩ := argumentEntry_cases hargument
    · rw [givenEntry_position hgiven]
      exact h.isBoundary_keyValue _ kv (List.mem_of_find?_eq_some hfind)
    · exact h.isBoundary_insertAt _

/-- Nothing but a number with too many digits makes a search fail. -/
theorem Node.InRange.found_or_overlong (h : n.InRange source.length false) (hcode : Utf8.decode source = .ok code)
    (query : Query) (ns : List Notice) :
    (∃ e, ((entriesInTree query source n).run.run ns).1 = .error (.tooManyDigits e)) ∨
      ∃ entries, ((entriesInTree query source n).run.run ns).1 = .ok entries := by
  rw [h.entries_eq hcode]
  cases hall : (n.sortedInvocations source).mapM (Invocation.read query code source) with
  | ok os => exact .inr ⟨os.filterMap id, rfl⟩
  | error f =>
    obtain ⟨v, _, hread⟩ := mapM_error hall
    rw [Invocation.read] at hread
    cases hr : query.reading code (v.call source (byteLineStarts source)) with
    | nothing => rw [hr] at hread; cases hread
    | message => rw [hr] at hread; cases hread
    | argument =>
      rw [hr, Reading.entry] at hread
      cases hargument : argumentEntry (v.call source (byteLineStarts source)) with
      | ok o => rw [hargument] at hread; cases hread
      | error e =>
        rw [hargument] at hread
        exact .inl ⟨e, congrArg Except.error (Except.error.inj hread).symm⟩

/-- All entries that are found are between characters. -/
theorem Node.All.entries (hcode : Utf8.decode source = .ok code) (h : n.All (Node.Seated source code))
    {ns : List Notice} {entries : List Entry} (hfound : ((entriesInTree query source n).run.run ns).1 = .ok entries)
    (hentry : entry ∈ entries) : IsBoundary code entry.position.offset := by
  obtain ⟨hentries, hread⟩ := (h.inRange hcode false).entries_of_found hcode hfound
  rw [hentries] at hentry
  obtain ⟨v, hv, hentryOf⟩ := List.mem_filterMap.mp hentry
  obtain ⟨_, hsettled⟩ := h.settled hcode (mem_sortedInvocations.mp hv)
  exact hsettled.entryOf (hread v hv) hentryOf

end

end LogRef
