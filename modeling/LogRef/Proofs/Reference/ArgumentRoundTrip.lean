import LogRef.Proofs.Reference.ArgumentPlace
import LogRef.Proofs.Reference.GivenArgument
import LogRef.Rust.Tree

/-!
# References in arguments, there and back

Where references live in arguments, the entries of an annotated source are those of the source, each with the
reference it had or the id it was given, as long as every call that gets a new argument admits one. A semicolon
with no argument before it does not: with a new argument there, the message is not the message any more.
-/
namespace LogRef

variable {query : Query} {source : Bytes} {code : List Char} {n : Node} {v : Invocation} {call : Call}
  {entry : Entry} {entries : List Entry} {start : Nat}

/-- A call that is read for its arguments has a message, and a reference among them or a place for one. -/
theorem argumentEntry_cases (h : argumentEntry call = .ok (some entry)) : call.message.isSome = true ∧
    ((∃ kv, call.keyValues.find? (·.key = referenceKey) = some kv ∧ givenEntry call kv = .ok entry) ∨
      (call.keyValues.find? (·.key = referenceKey) = none ∧ entry = newEntry call)) := by
  unfold argumentEntry at h
  split at h
  · cases h
  · next hmessage =>
    refine ⟨by simpa [Option.isSome_iff_ne_none] using hmessage, ?_⟩
    split at h
    · next kv hfind =>
      refine Or.inl ⟨kv, hfind, ?_⟩
      cases hgiven : givenEntry call kv with
      | error e => rw [hgiven] at h; cases h
      | ok entry' => rw [hgiven] at h; cases h; rfl
    · next hfind =>
      cases h
      exact Or.inr ⟨hfind, rfl⟩

theorem message_of_argumentEntry (h : argumentEntry call = .ok none) : call.message.isSome = false := by
  unfold argumentEntry at h
  split at h
  · next hmessage => simpa using hmessage
  · split at h
    · next kv hfind =>
      cases hgiven : givenEntry call kv with
      | error e => rw [hgiven] at h; cases h
      | ok entry' => rw [hgiven] at h; cases h
    · cases h

theorem argumentEntry_of_no_message (h : call.message.isSome = false) : argumentEntry call = .ok none := by
  rw [argumentEntry, if_pos (by simpa using h)]

theorem argumentEntry_of_given {kv : KeyValue} (h : call.message.isSome = true)
    (hfind : call.keyValues.find? (·.key = referenceKey) = some kv) (hgiven : givenEntry call kv = .ok entry) :
    argumentEntry call = .ok (some entry) := by
  have hmessage : ¬ call.message.isNone = true := by rw [← Option.not_isSome, h]; decide
  rw [argumentEntry, if_neg hmessage, hfind]
  simp only [hgiven]
  rfl

theorem givenEntry_ok {kv : KeyValue} (h : givenEntry call kv = .ok entry) :
    ∃ id, readId (Text.trim kv.valueText.toList) = .ok id ∧ entry.reference = id.map Int.ofNat ∧
      entry.site = .givenArgument ∧ entry.macroName = lastName call.name := by
  unfold givenEntry at h
  cases hid : readId (Text.trim kv.valueText.toList) with
  | error e => rw [hid] at h; cases h
  | ok id => rw [hid] at h; cases h; exact ⟨id, rfl, rfl, rfl, rfl⟩

theorem exists_givenEntry (call : Call) (kv : KeyValue) {id : Option Nat}
    (h : readId (Text.trim kv.valueText.toList) = .ok id) :
    ∃ entry, givenEntry call kv = .ok entry ∧ entry.reference = id.map Int.ofNat ∧
      entry.site = .givenArgument ∧ entry.macroName = lastName call.name := by
  unfold givenEntry
  rw [h]
  exact ⟨_, rfl, rfl, rfl, rfl⟩

theorem Invocation.argumentEntry_of_read
    (hr : query.reading code (v.call source (byteLineStarts source)) = .argument)
    (h : v.read query code source = .ok (v.entryOf query code source)) :
    argumentEntry (v.call source (byteLineStarts source)) = .ok (v.entryOf query code source) := by
  rw [read, hr, Reading.entry] at h
  cases hargument : argumentEntry (v.call source (byteLineStarts source)) with
  | error e => rw [hargument] at h; cases h
  | ok entry => rw [hargument] at h; exact congrArg Except.ok (Except.ok.inj h)

/-- Every call that is to get a new argument admits one. -/
def Admitted (query : Query) (source : Bytes) (code : List Char) (n : Node) : Prop :=
  ∀ v ∈ n.sortedInvocations source, ∀ entry, v.entryOf query code source = some entry →
    entry.site = .newArgument → v.Admits code

/-- A call with a message has arguments. -/
theorem Invocation.tokens_ne_nil {lines : List Nat} (h : (v.call source lines).message.isSome = true) :
    ∃ t r, messageToken v.tokens = some t ∧ t.contentRange = some r ∧ v.tokens ≠ [] := by
  obtain ⟨m, hm⟩ := Option.isSome_iff_exists.mp h
  rw [call_message] at hm
  obtain ⟨t, ht, hm⟩ := Option.bind_eq_some_iff.mp hm
  obtain ⟨r, hr, _⟩ := Option.map_eq_some_iff.mp hm
  exact ⟨t, r, ht, hr, List.ne_nil_of_mem (mem_of_messageToken ht).1⟩

/-- What is known of the calls of a source in which every entry could be found. -/
structure Readable (query : Query) (source : Bytes) (code : List Char) (n : Node) : Prop where
  decoded : Utf8.decode source = .ok code
  fits : n.Fits source
  closes : n.closesComments source = true
  read : ∀ v ∈ n.sortedInvocations source, v.read query code source = .ok (v.entryOf query code source)
  admitted : Admitted query source code n

namespace Readable

variable (h : Readable query source code n)
include h

/-- The place of a pending entry is one that its call has for it, where a text changes no directive. -/
theorem offers (hv : v ∈ n.sortedInvocations source) (hg : v.entryOf query code source = some entry)
    (hnone : entry.hasReference = false) (husable : entry.isUsable = true) :
    v.Offers entry ∧ entry.Sits code ∧ (entry.site = .newArgument → IsBreak source entry.place ∧
      entry = newEntry (v.call source (byteLineStarts source))) := by
  cases hr : query.reading code (v.call source (byteLineStarts source)) with
  | nothing => rw [Invocation.entryOf_nothing hr] at hg; cases hg
  | message =>
    obtain ⟨hoffers, hsite, hb, ha⟩ := Invocation.offers_of_message hr hg
    refine ⟨hoffers, hoffers.sits_message (h.fits.laid hv) hsite h.decoded hb ha, fun hnew => ?_⟩
    rw [hsite] at hnew
    cases hnew
  | argument =>
    have hentry := Invocation.argumentEntry_of_read hr (h.read v hv)
    rw [hg] at hentry
    obtain ⟨hmessage, ⟨kv, _, hgiven⟩ | ⟨_, hnew⟩⟩ := argumentEntry_cases hentry
    · obtain ⟨_, _, _, hsite, _⟩ := givenEntry_ok hgiven
      rw [Entry.isUsable, hsite, hnone] at husable
      cases husable
    · obtain ⟨t, r, ht, hrange, hsome⟩ := Invocation.tokens_ne_nil hmessage
      have hsite : entry.site = .newArgument := by rw [hnew]; rfl
      obtain ⟨p, hp, hplace, hbreak, hguarded⟩ := (h.admitted v hv entry hg hsite).insertAt h.decoded h.fits
        h.closes (Node.mem_sortedInvocations.mp hv) hsome (byteLineStarts source)
      have hoffset : entry.position.offset = p := by rw [hnew]; exact hp
      have hentry : entry.place = p := by rw [Entry.place, hoffset, Int.toNat_natCast]
      refine ⟨⟨t, r, ht, hrange, Or.inr ⟨hsite, hoffset ▸ hplace⟩⟩, ⟨hentry ▸ hguarded, fun id => ?_⟩,
        fun _ => ⟨hentry ▸ hbreak, hnew⟩⟩
      have hafter : entry.after = some "; " ∨ entry.after = some ", " := by
        rw [hnew, newEntry]
        simp only
        split
        · exact Or.inl rfl
        · exact Or.inr rfl
      rcases hafter with ha | ha
      · exact Entry.insertable_argument (by rw [hnew]; rfl) ha rfl (Or.inl rfl) id
      · exact Entry.insertable_argument (by rw [hnew]; rfl) ha rfl (Or.inr rfl) id

theorem offered (hentries : entries =
    (n.sortedInvocations source).filterMap (Invocation.entryOf query code source)) :
    Offered source n (Invocation.entryOf query code source) entries :=
  ⟨h.fits, hentries, fun _ hv _ hg hp =>
    have hpending := (Insertion.mem_pending.mp hp).2
    (h.offers hv hg hpending.1 hpending.2).1⟩

/-- The separator of a new argument goes with the arguments there are. -/
theorem agrees (hv : v ∈ n.sortedInvocations source)
    (hg : v.entryOf query code source = some (newEntry (v.call source (byteLineStarts source)))) :
    (newEntry (v.call source (byteLineStarts source))).Agrees v.tokens := by
  have hadmits := h.admitted v hv _ hg rfl
  have hkeyed := Invocation.call_keyValues source (byteLineStarts source) v
  unfold splitArguments at hkeyed
  unfold Entry.Agrees Entry.closing newEntry
  cases hsplit : splitAtSemicolon (argumentsOf v.tokens) with
  | none =>
    rw [hsplit] at hkeyed
    rw [hkeyed]
    exact ⟨fun _ => rfl, fun _ => rfl⟩
  | some r =>
    obtain ⟨s, hs, htokens⟩ := hadmits.keyed r hsplit
    obtain ⟨t, ts, hts⟩ := List.exists_cons_of_ne_nil htokens
    obtain ⟨kv, hkv⟩ : ∃ kv, s.keyValue source (byteLineStarts source) = some kv := by
      unfold Segment.keyValue
      rw [hts]
      simp only
      split <;> exact ⟨_, rfl⟩
    have hmem : kv ∈ (v.call source (byteLineStarts source)).keyValues := by
      rw [hkeyed, hsplit]
      exact List.mem_filterMap.mpr ⟨s, hs, hkv⟩
    have hsome : (v.call source (byteLineStarts source)).keyValues.isEmpty = false := by
      rw [List.isEmpty_eq_false_iff]
      exact List.ne_nil_of_mem hmem
    rw [hsome]
    refine ⟨fun heq => ?_, fun heq => by cases heq⟩
    revert heq
    simp

end Readable

/-- A text that ends with a blank is a break. -/
theorem Edits.isBreak_right {e : Edits} {p : Nat} (hp : p < source.length) {text : List Char}
    (htext : e.text p = text ++ [' ']) : IsBreak (e.apply source) (e.right p) := by
  have hmark : ((e.apply source).take (e.right p).toNat).drop (e.left p).toNat =
      Utf8.encode text ++ [asciiByte ' '] := by
    rw [← Bytes.slice_eq Edits.left_nonneg Edits.right_nonneg, Edits.slice_mark hp, Edits.mark, htext,
      Utf8.encode_append]
    rfl
  intro b hb
  have hlast := congrArg List.getLast? hmark
  rw [List.getLast?_drop, List.getLast?_concat] at hlast
  split at hlast
  · cases hlast
  · rw [Option.mem_def.mp hb] at hlast
    rw [Option.some.inj hlast]
    decide

namespace Offered

open Insertion

variable (ho : Offered source n (Invocation.entryOf query code source) entries)
include ho

theorem pending_of_found (hv : v ∈ n.sortedInvocations source)
    (hg : v.entryOf query code source = some entry) (hnone : entry.hasReference = false)
    (husable : entry.isUsable = true) : entry ∈ pending entries := by
  refine mem_pending.mpr ⟨?_, hnone, husable⟩
  rw [ho.found]
  exact List.mem_filterMap.mpr ⟨v, hv, hg⟩

theorem suits_of_readable (h : Readable query source code n) :
    (numbering start entries).Suits source n := by
  refine ho.suits fun p htokens => ?_
  obtain ⟨entry, he, hp, hsite⟩ : ∃ entry ∈ pending entries, entry.place = p ∧ entry.site = .newArgument := by
    refine Classical.byContradiction fun hnone => htokens (numbering_tokens_of_message fun e he hp hsite => ?_)
    exact hnone ⟨e, he, hp, hsite⟩
  obtain ⟨v, hv, hg, _⟩ := ho.exists_of_pending he
  have hpending := (mem_pending.mp he).2
  obtain ⟨_, _, hnew⟩ := h.offers hv hg hpending.1 hpending.2
  obtain ⟨hbreak, heq⟩ := hnew hsite
  have hafter : ∃ after, entry.after = some (String.ofList (after ++ [' '])) := by
    rw [heq, newEntry]
    simp only
    split
    · exact ⟨[';'], rfl⟩
    · exact ⟨[','], rfl⟩
  obtain ⟨after, hafter⟩ := hafter
  have htext := ho.text_pending start he
  rw [Entry.markFor_argument (by rw [heq]; rfl) hafter, String.toList_ofList, ← List.append_assoc,
    ← List.append_assoc] at htext
  exact hp ▸ ⟨hbreak, Edits.isBreak_right (ho.place_lt he) htext⟩

theorem sits_of_readable (h : Readable query source code n) : ∀ e ∈ pending entries, e.Sits code := by
  intro e he
  obtain ⟨v, hv, hg, _⟩ := ho.exists_of_pending he
  have hpending := (mem_pending.mp he).2
  exact (h.offers hv hg hpending.1 hpending.2).2.1

/-- A reference among the arguments of a call is read as it was. -/
theorem completes_given (hs : (numbering start entries).Suits source n)
    (hv : v ∈ n.sortedInvocations source) (hfree : v.Untouched (numbering start entries)) {kv : KeyValue}
    {lines lines' : List Nat}
    (hfind : (v.call source lines).keyValues.find? (·.key = referenceKey) = some kv)
    (hgiven : givenEntry (v.call source lines) kv = .ok entry) :
    ∃ kv' entry', ((v.grown (numbering start entries) ((numbering start entries).apply source)).call
        ((numbering start entries).apply source) lines').keyValues.find? (·.key = referenceKey) = some kv' ∧
      givenEntry ((v.grown (numbering start entries) ((numbering start entries).apply source)).call
        ((numbering start entries).apply source) lines') kv' = .ok entry' ∧
      Entry.Completes start (pending entries) entry' entry := by
  have hrel := find?_rel (ho.keyValues_moved hs hv hfree lines' lines)
    (p := fun kv => kv.key = referenceKey) (q := fun kv => kv.key = referenceKey)
    fun a b hab => decide_eq_decide.mpr hab.key
  rw [hfind] at hrel
  obtain ⟨id, hid, hreference, hsite, hname⟩ := givenEntry_ok hgiven
  cases hfind' : ((v.grown (numbering start entries) ((numbering start entries).apply source)).call
      ((numbering start entries).apply source) lines').keyValues.find? (·.key = referenceKey) with
  | none => rw [hfind'] at hrel; cases hrel
  | some kv' =>
    rw [hfind'] at hrel
    cases hrel with
    | some hmatch =>
      rw [← hmatch.readId_eq] at hid
      obtain ⟨entry', hentry', hreference', hsite', hname'⟩ := exists_givenEntry _ kv' hid
      refine ⟨kv', entry', rfl, hentry', hname'.trans hname.symm, ?_, ?_⟩
      · rw [hsite', hsite]
        rfl
      · have hkept : (entry.hasReference || !entry.isUsable) = true := by
          rw [Entry.isUsable, hsite]
          cases entry.hasReference <;> rfl
        rw [hreference', hkept, if_pos rfl, hreference]

/-- A call with a message has one still, whether or not it got an argument. -/
theorem message_isSome (hs : (numbering start entries).Suits source n) (hv : v ∈ n.sortedInvocations source)
    (lines lines' : List Nat)
    (htoken : messageToken (v.grown (numbering start entries) ((numbering start entries).apply source)).tokens =
      (messageToken v.tokens).map (Token.moved (numbering start entries)
        ((numbering start entries).apply source))) :
    ((v.grown (numbering start entries) ((numbering start entries).apply source)).call
        ((numbering start entries).apply source) lines').message.isSome =
      (v.call source lines).message.isSome := by
  rw [hs.message ho.fits (Node.mem_sortedInvocations.mp hv) htoken, Invocation.call_message]
  cases messageToken v.tokens with
  | none => rfl
  | some t => cases hr : t.contentRange <;> simp [hr]

/-- A new argument is read with its id. -/
theorem completes_new (h : Readable query source code n) (hs : (numbering start entries).Suits source n)
    (hids : ∀ e ∈ pending entries, idAt start (pending entries) e.place ≤ greatestId)
    (hv : v ∈ n.sortedInvocations source)
    (hg : v.entryOf query code source = some (newEntry (v.call source (byteLineStarts source))))
    (hmessage : (v.call source (byteLineStarts source)).message.isSome = true) (lines' : List Nat) :
    ∃ entry', argumentEntry ((v.grown (numbering start entries) ((numbering start entries).apply source)).call
        ((numbering start entries).apply source) lines') = .ok (some entry') ∧
      Entry.Completes start (pending entries) entry' (newEntry (v.call source (byteLineStarts source))) := by
  have hagrees := h.agrees hv hg
  generalize hnew : newEntry (v.call source (byteLineStarts source)) = entry at hg hagrees ⊢
  have hsite : entry.site = .newArgument := by rw [← hnew]; rfl
  have hb : entry.before = some "ref = " := by rw [← hnew]; rfl
  obtain ⟨after, ha⟩ : ∃ after, entry.after = some after := by rw [← hnew]; exact ⟨_, rfl⟩
  have he : entry ∈ pending entries :=
    ho.pending_of_found hv hg (by rw [← hnew]; rfl) (by rw [← hnew]; rfl)
  have hsteady : ∀ t ∈ v.tokens, t.Steady (numbering start entries) _ :=
    fun t ht => hs.steady ho.fits (Node.mem_sortedInvocations.mp hv) ht
  have hoffers := (h.offers hv hg (by rw [← hnew]; rfl) (by rw [← hnew]; rfl)).1
  have hplace := hoffers.place_eq (ho.fits.laid hv)
  have hargument : (numbering start entries).argument true v.start v.tokens =
      argumentTokens ((numbering start entries).left entry.place)
        (idAt start (pending entries) entry.place) entry.separator := by
    obtain ⟨_, _, _, _, ⟨hmsg, _⟩ | ⟨_, hat⟩⟩ := hoffers
    · rw [hsite] at hmsg
      cases hmsg
    · rw [Edits.argument, if_pos rfl, hat, Option.map_some, Option.getD_some, ← ho.tokens_pending he hsite]
      rfl
  -- the new argument comes first, and its value is the digits of the id
  obtain ⟨span, value, hkv⟩ := keyValue_argumentSegment ((numbering start entries).apply source) lines'
    ((numbering start entries).left entry.place) (idAt start (pending entries) entry.place) entry
  rw [slice_digits (ho.place_lt he) (ho.text_pending start he) hb ha] at hkv
  have hfind : ((v.grown (numbering start entries) ((numbering start entries).apply source)).call
      ((numbering start entries).apply source) lines').keyValues.find? (·.key = referenceKey) =
        some ⟨referenceKey, span, value,
          Bytes.lossyText (Utf8.encode (digitsOf (idAt start (pending entries) entry.place)))⟩ := by
    rw [Invocation.call_keyValues, Invocation.grown, splitArguments_grown hsteady hargument hagrees,
      List.filterMap_cons_some hkv]
    exact List.find?_cons_of_pos (decide_eq_true rfl)
  have hid : readId (Text.trim (Bytes.lossyText (Utf8.encode
      (digitsOf (idAt start (pending entries) entry.place)))).toList) =
        .ok (some (idAt start (pending entries) entry.place)) := by
    rw [Bytes.lossyText, String.toList_ofList, ← List.append_nil (Utf8.encode _),
      Utf8.decodeLossy_encode_append]
    change readId (Text.trim (_ ++ [])) = _
    rw [List.append_nil, trim_digitsOf, readId_digitsOf (hids entry he)]
  obtain ⟨entry', hentry', hreference', hsite', hname'⟩ :=
    exists_givenEntry _ (⟨referenceKey, span, value, Bytes.lossyText _⟩ : KeyValue) hid
  have hsome := ho.message_isSome hs hv (byteLineStarts source) lines'
    (messageToken_grown hsteady hargument hagrees)
  refine ⟨entry', argumentEntry_of_given (hsome.trans hmessage) hfind hentry', ?_, ?_, ?_⟩
  · rw [hname', ← hnew]
    rfl
  · rw [hsite', hsite]
    rfl
  · rw [hreference', ← hnew]
    rfl

/-- A call with a `ref` argument gets no text. -/
theorem untouched_of_given (hv : v ∈ n.sortedInvocations source)
    (hg : v.entryOf query code source = some entry) (hsite : entry.site = .givenArgument) :
    v.Untouched (numbering start entries) := by
  refine ho.untouched hv fun other hother hg' => ?_
  obtain rfl := Option.some.inj (hg.symm.trans hg')
  obtain ⟨_, hnone, husable⟩ := mem_pending.mp hother
  rw [Entry.isUsable, hsite, hnone] at husable
  cases husable

/-- A call that is read for its arguments is read with its reference. -/
theorem completes_argument (h : Readable query source code n) (hs : (numbering start entries).Suits source n)
    (hids : ∀ e ∈ pending entries, idAt start (pending entries) e.place ≤ greatestId)
    (hv : v ∈ n.sortedInvocations source)
    (hr : query.reading code (v.call source (byteLineStarts source)) = .argument) (lines' : List Nat) :
    ∃ found, argumentEntry ((v.grown (numbering start entries) ((numbering start entries).apply source)).call
        ((numbering start entries).apply source) lines') = .ok found ∧
      Option.Rel (Entry.Completes start (pending entries)) found (v.entryOf query code source) := by
  have hentry := Invocation.argumentEntry_of_read hr (h.read v hv)
  -- without a new argument the message stays where it is
  have hmessage (hfree : v.Untouched (numbering start entries)) :=
    ho.message_isSome hs hv (byteLineStarts source) lines' (by
      rw [Invocation.grown, grownTokens_of_nil (ho.argument_of_untouched hs hv hfree),
        messageToken_moved fun t ht => hs.steady ho.fits (Node.mem_sortedInvocations.mp hv) ht])
  cases hg : v.entryOf query code source with
  | none =>
    have hfree : v.Untouched (numbering start entries) :=
      ho.untouched hv fun entry _ hentry => by rw [hg] at hentry; cases hentry
    rw [hg] at hentry
    have hnone := (hmessage hfree).trans (message_of_argumentEntry hentry)
    exact ⟨none, argumentEntry_of_no_message hnone, .none⟩
  | some entry =>
    rw [hg] at hentry
    obtain ⟨hsome, ⟨kv, hfind, hgiven⟩ | ⟨_, rfl⟩⟩ := argumentEntry_cases hentry
    · obtain ⟨_, _, _, hsite, _⟩ := givenEntry_ok hgiven
      have hfree : v.Untouched (numbering start entries) := ho.untouched_of_given hv hg hsite
      obtain ⟨kv', entry', hfind', hgiven', hdone⟩ := ho.completes_given hs hv hfree hfind hgiven
      exact ⟨some entry', argumentEntry_of_given ((hmessage hfree).trans hsome) hfind' hgiven', .some hdone⟩
    · obtain ⟨entry', hentry', hdone⟩ := ho.completes_new h hs hids hv hg hsome lines'
      exact ⟨some entry', hentry', .some hdone⟩

/-- With the texts for all ids put in, every call is read with its reference. -/
theorem completed_of_readable (h : Readable query source code n)
    (hcomments : query.comments = CommentPattern.slashes)
    (hids : ∀ e ∈ pending entries, idAt start (pending entries) e.place ≤ greatestId) {n' : Node}
    (hm : n.Moves (numbering start entries) false n')
    (hreads : n'.ReadsArguments (numbering start entries) ((numbering start entries).apply source))
    (ns : List Notice) :
    ∃ entries', ((entriesInTree query ((numbering start entries).apply source) n').run.run ns).1 =
        .ok entries' ∧ List.Forall₂ (Entry.Completes start (pending entries)) entries' entries := by
  have hs : (numbering start entries).Suits source n := ho.suits_of_readable h
  have hsits := ho.sits_of_readable h
  refine ho.entries_completed hs hm hreads (Offered.decode_apply h.decoded hsits) (fun v hv => ?_) ns
  have hreading := reading_grown (e := numbering start entries) hcomments h.decoded (ho.oneLine hsits)
    (fun _ => ho.fitsLine h.decoded hsits) (ho.fits.laid hv)
  unfold Invocation.read
  rw [hreading]
  cases hr : query.reading code (v.call source (byteLineStarts source)) with
  | nothing =>
    rw [Invocation.entryOf_nothing hr]
    exact ⟨none, rfl, .none⟩
  | message =>
    refine ⟨_, rfl, ho.completes_message hs hids hv (Invocation.entryOf_message hr) ?_⟩
    have hnone : (numbering start entries).argument true v.start v.tokens = [] :=
      ho.argument_eq_nil hv fun entry _ hg => by
        rw [(Invocation.offers_of_message hr hg).2.1]
        decide
    rw [Invocation.grown, grownTokens_of_nil hnone,
      messageToken_moved fun t ht => hs.steady ho.fits (Node.mem_sortedInvocations.mp hv) ht]
  | argument =>
    obtain ⟨found, hfound, hdone⟩ := ho.completes_argument h hs hids hv hr
      (byteLineStarts ((numbering start entries).apply source))
    exact ⟨found, by rw [Reading.entry, hfound]; rfl, hdone⟩

end Offered

/-- Let a parser move the boundaries of its tree past the texts put in and read new arguments as their tokens, and
let every call that is to get an argument admit one. Once a visit has given ids to the entries of a source without
failing, the entries of the new contents have the same names in the same order, each with its old reference or
the id assigned to it, and those that got an argument have it as one that is given. -/
theorem arguments_round_trip (hcomments : query.comments = CommentPattern.slashes) (parse : Bytes → Node)
    (hcode : Utf8.decode source = .ok code) (hfits : (parse source).Fits source)
    (hcloses : (parse source).closesComments source = true) {notices : List Notice}
    (hfound : (entriesInTree query source (parse source)).run.run [] = (.ok entries, notices))
    (hadmitted : Admitted query source code (parse source)) (device : Device) (start : Nat) (path : Path) (s : Session)
    {s' : Session} {result : Insertion} {counter : Option Counter} (hread : s.disk.read path = .ok source)
    (hvisit : (Insertion.visit device (some ⟨start⟩) path source entries).run s = ((result, counter), s'))
    (hok : result.hasFailed = false)
    (hmoves : (parse source).Moves (numbering start entries) false
      (parse ((numbering start entries).apply source)))
    (hreads : (parse ((numbering start entries).apply source)).ReadsArguments (numbering start entries)
      ((numbering start entries).apply source)) :
    ∃ edited, edited = (numbering start entries).apply source ∧
      s.disk.Rewritten path source edited s'.disk ∧
      ∃ entries' notices', (entriesInTree query edited (parse edited)).run.run [] = (.ok entries', notices') ∧
        entries'.map Entry.macroName = entries.map Entry.macroName ∧
        entries'.map Entry.site = entries.map (fun e => e.site.settled) ∧
        entries'.map Entry.reference = Insertion.assigned start entries ∧
        ∀ e ∈ entries', e.hasReference = true := by
  obtain ⟨hentries, hall⟩ := entries_of_found hcode hfits (congrArg Prod.fst hfound)
  have h : Readable query source code (parse source) := ⟨hcode, hfits, hcloses, hall, hadmitted⟩
  have ho := h.offered hentries
  obtain ⟨husable, hids, hrewritten⟩ := ho.rewritten_of_visit hread hvisit hok
  obtain ⟨entries', hfound', hdone⟩ := ho.completed_of_readable h hcomments hids hmoves hreads []
  exact ⟨_, rfl, hrewritten, entries', _, Prod.ext hfound' rfl, Insertion.macroNames_completed hdone,
    Insertion.sites_completed hdone, Insertion.references_completed hdone husable ho.distinct,
    Insertion.hasReference_completed hdone husable⟩

/-- A call with a key-value argument and, behind a target, one with a reference; a text before the first. -/
def twoArguments (mark : String) : Bytes :=
  Bytes.ofString ("m!(" ++ mark ++ "k=1;\"a\");m!(target:x,ref=7;\"b\")")

def twoArgumentsEntries : List Entry :=
  [⟨⟨3, 1, 4⟩, none, "m", .newArgument, some "ref = ", some ", "⟩,
    ⟨⟨28, 1, 29⟩, some 7, "m", .givenArgument, none, none⟩]

/-- The tree without the new argument, and with it. -/
def twoArgumentsTree : Node :=
  .mk .other 0 34 true false false
    [.mk .macroInvocation 0 11 true false false
      [.mk .identifier 0 1 true false true [],
        .mk .tokenTree 2 11 true false false
          [.mk .identifier 3 4 true false false [], .mk .other 5 6 true false false [],
            .mk .stringLiteral 7 10 true false false []]],
      .mk .macroInvocation 12 34 true false false
      [.mk .identifier 12 13 true false true [],
        .mk .tokenTree 14 34 true false false
          [.mk .identifier 15 21 true false false [], .mk .identifier 22 23 true false false [],
            .mk .identifier 24 27 true false false [], .mk .other 28 29 true false false [],
            .mk .stringLiteral 30 33 true false false []]]]

def twoArgumentsTreeGrown : Node :=
  .mk .other 0 43 true false false
    [.mk .macroInvocation 0 20 true false false
      [.mk .identifier 0 1 true false true [],
        .mk .tokenTree 2 20 true false false
          [.mk .identifier 3 6 true false false [], .mk .other 9 10 true false false [],
            .mk .identifier 12 13 true false false [], .mk .other 14 15 true false false [],
            .mk .stringLiteral 16 19 true false false []]],
      .mk .macroInvocation 21 43 true false false
      [.mk .identifier 21 22 true false true [],
        .mk .tokenTree 23 43 true false false
          [.mk .identifier 24 30 true false false [], .mk .identifier 31 32 true false false [],
            .mk .identifier 33 36 true false false [], .mk .other 37 38 true false false [],
            .mk .stringLiteral 39 42 true false false []]]]

theorem parse_twoArguments : Rust.parse (twoArguments "") = twoArgumentsTree ∧
    Rust.parse (twoArguments "ref = 8, ") = twoArgumentsTreeGrown := by
  decide +kernel

theorem reads_twoArguments :
    twoArgumentsTreeGrown.ReadsArguments (numbering 8 twoArgumentsEntries) (twoArguments "ref = 8, ") := by
  have honly (p : Nat) (hp : (numbering 8 twoArgumentsEntries).tokens p ≠ []) : p = 3 := by
    refine Decidable.byContradiction fun hne => hp (numbering_tokens_of_message fun e he hplace => ?_)
    obtain rfl := List.mem_singleton.mp he
    exact absurd hplace.symm hne
  simp only [twoArgumentsTreeGrown, Node.ReadsArguments, Node.AllReadArguments, reduceCtorEq, false_implies,
    true_and, and_true]
  refine ⟨fun _ p hp _ _ _ => ?_, fun _ p hp hlo => ?_⟩
  · obtain rfl := honly p hp
    rfl
  · obtain rfl := honly p hp
    exact absurd hlo (by decide +kernel)

/-- Calls of `m` are looked for, with references in arguments. -/
def argumentQuery : Query := ⟨["m"], true, CommentPattern.slashes, Rust.parse⟩

/-- The first of two calls gets the id 8 in an argument of its own, and the second keeps 7. -/
theorem arguments_round_trip_two :
    let path : Path := ⟨.none, ["a.rs"]⟩
    let s : Session := ⟨⟨⟨[(["a.rs"], .file (twoArguments "") 0o644)]⟩, [], []⟩, [], .never, "0"⟩
    let visited := (Insertion.visit .sound (some ⟨8⟩) path (twoArguments "") twoArgumentsEntries).run s
    visited.1 = (⟨false, 1⟩, some ⟨9⟩) ∧ (visited.2.disk.read path).toOption = some (twoArguments "ref = 8, ") ∧
      s.disk.Rewritten path (twoArguments "") (twoArguments "ref = 8, ") visited.2.disk ∧
      ∃ entries notices, (entriesInTree argumentQuery (twoArguments "ref = 8, ")
          (Rust.parse (twoArguments "ref = 8, "))).run.run [] = (.ok entries, notices) ∧
        entries.map Entry.site = [.givenArgument, .givenArgument] ∧
        entries.map Entry.reference = [some 8, some 7] := by
  intro path s visited
  have hcode : Utf8.decode (twoArguments "") = .ok "m!(k=1;\"a\");m!(target:x,ref=7;\"b\")".toList := by rfl
  have hedited : (numbering 8 twoArgumentsEntries).apply (twoArguments "") = twoArguments "ref = 8, " := by
    decide +kernel
  have htree : twoArgumentsTree.Fits (twoArguments "") ∧
      twoArgumentsTree.closesComments (twoArguments "") = true ∧
      twoArgumentsTree.Moves (numbering 8 twoArgumentsEntries) false twoArgumentsTreeGrown := by decide +kernel
  have hsorted : (twoArgumentsTree.invocations (twoArguments "")).Pairwise
      fun a b => a.nameStart ≤ b.nameStart := by decide +kernel
  have hread : ((twoArgumentsTree.invocations (twoArguments "")).mapM (Invocation.read
      argumentQuery "m!(k=1;\"a\");m!(target:x,ref=7;\"b\")".toList
      (twoArguments ""))).toOption.map (·.filterMap id) = some twoArgumentsEntries := by decide +kernel
  have hadmits : ∀ v ∈ twoArgumentsTree.invocations (twoArguments ""),
      ∀ entry ∈ v.entryOf argumentQuery
        "m!(k=1;\"a\");m!(target:x,ref=7;\"b\")".toList (twoArguments ""),
      entry.site = .newArgument → argumentIndex v.tokens = 0 ∧
        ∀ r ∈ splitAtSemicolon (argumentsOf v.tokens), ∃ s ∈ r.1, s.tokens ≠ [] := by decide +kernel
  rw [← parse_twoArguments.1] at htree hsorted hread hadmits
  rw [← parse_twoArguments.2] at htree
  obtain ⟨hfits, hcloses, hmoves⟩ := htree
  have hfound : ((entriesInTree argumentQuery (twoArguments "")
      (Rust.parse (twoArguments ""))).run.run []).1 = .ok twoArgumentsEntries :=
    found_of_reads hcode hfits hsorted hread []
  obtain ⟨_, hdone, hrewritten, entries, notices, hagain, _, hsites, hreferences, _⟩ :=
    arguments_round_trip rfl Rust.parse hcode hfits hcloses (Prod.ext hfound rfl) (fun v hv entry hg hsite => by
        obtain ⟨hindex, hkeyed⟩ := hadmits v (Node.mem_sortedInvocations.mp hv) entry hg hsite
        exact ⟨hkeyed, fun hne => absurd hindex hne⟩) .sound 8 path s rfl rfl
      (by decide +kernel) (by rw [hedited]; exact hmoves)
      (by rw [hedited, parse_twoArguments.2]; exact reads_twoArguments)
  rw [hedited] at hdone
  subst hdone
  exact ⟨by decide +kernel, by decide +kernel, hrewritten, entries, notices, hagain, hsites, hreferences⟩

/-- A call without an argument before its semicolon, and some text there. -/
def bareSemicolon (mark : String) : Bytes := Bytes.ofString ("m!(" ++ mark ++ ";\"a\")")

def bareSemicolonEntry : Entry := ⟨⟨3, 1, 4⟩, none, "m", .newArgument, some "ref = ", some "; "⟩

/-- With no argument before a semicolon, an entry is given an id without a failure and is gone afterwards. -/
theorem bare_semicolon_loses_entry :
    let path : Path := ⟨.none, ["a.rs"]⟩
    let s : Session := ⟨⟨⟨[(["a.rs"], .file (bareSemicolon "") 0o644)]⟩, [], []⟩, [], .never, "0"⟩
    let visited := (Insertion.visit .sound (some ⟨1⟩) path (bareSemicolon "") [bareSemicolonEntry]).run s
    ((findEntries argumentQuery (bareSemicolon "")).run.run []).1.toOption = some [bareSemicolonEntry] ∧
      visited.1.1 = ⟨false, 1⟩ ∧
      (visited.2.disk.read path).toOption = some (bareSemicolon "ref = 1; ") ∧
      ((findEntries argumentQuery (bareSemicolon "ref = 1; ")).run.run []).1.toOption = some [] := by
  decide +kernel

end LogRef
