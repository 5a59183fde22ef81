import LogRef.Proofs.Reference.ArgumentRoundTrip

/-!
# Places in source order

Entries come in the order of the names of their calls. Their places do too, unless a call overtakes one that is named
later: the other one stands in the target or among the key-value arguments of the first, before its place.
-/
namespace LogRef

namespace Invocation

variable {source : Bytes} {code : List Char} {query : Query} {v w : Invocation} {entry : Entry} {p : Int} {t : Token}

/-- Where a token begins or ends is at the level of the call. -/
theorem Laid.atLevel_bound (h : v.Laid source) (ht : t ∈ v.tokens) (hp : p = t.start ∨ p = t.stop) : v.AtLevel p := by
  have hb := h.ordered.mem ht
  have hne := (h.covers t ht).nonempty
  refine ⟨by omega, by omega, fun u hu _ => ?_⟩
  rcases h.ordered.apart ht hu with rfl | hapart
  · omega
  · omega

/-- So is the place behind the opening bracket, if there is anything in the brackets. -/
theorem Laid.atLevel_open (h : v.Laid source) (ht : t ∈ v.tokens) : v.AtLevel (v.start + 1) := by
  have hb := h.ordered.mem ht
  have hne := (h.covers t ht).nonempty
  refine ⟨by omega, by omega, fun u hu _ => .inl ?_⟩
  have := h.ordered.mem hu
  omega

/-- A new argument goes behind the opening bracket, or where a token begins or ends. -/
theorem Laid.atLevel_insertAt (h : v.Laid source) (hsome : v.tokens ≠ []) (lines : List Nat) :
    v.AtLevel (v.call source lines).insertAt.start := by
  obtain ⟨u, hu⟩ := List.exists_mem_of_ne_nil v.tokens hsome
  rw [call_insertAt]
  split
  · exact h.atLevel_open hu
  · next span hspan =>
    cases hhead : (argumentsOf v.tokens).head?.bind fun s => s.tokens.head? with
    | some t =>
      obtain ⟨segment, hsegment, ht⟩ := Option.bind_eq_some_iff.mp hhead
      exact h.atLevel_bound (mem_of_mem_argumentsOf (List.mem_of_mem_head? hsegment) (List.mem_of_mem_head? ht))
        (.inl rfl)
    | none =>
      -- nothing follows the target: the place is its end
      cases hseg : segmentsOf v.tokens with
      | nil => exact absurd (segmentsOf_eq_nil hseg) hsome
      | cons segment rest =>
        rw [hseg, targetSpan] at hspan
        split at hspan
        · split at hspan
          · cases hspan
          · next first more htokens =>
            obtain rfl := Option.some.inj hspan
            have hlast : (first :: more).getLastD first ∈ segment.tokens := by
              rw [htokens, List.getLastD_cons]
              exact List.getLastD_mem_cons
            exact h.atLevel_bound (mem_of_mem_segmentsOf (hseg ▸ List.mem_cons_self) hlast) (.inr rfl)
        · cases hspan

/-- A reference in an argument has its place where a token begins. -/
theorem atLevel_of_given (hl : v.Laid source) {kv : KeyValue}
    (hkv : kv ∈ (v.call source (byteLineStarts source)).keyValues) :
    v.AtLevel (kv.value.getD kv.span).position.offset := by
  rw [call_keyValues] at hkv
  obtain ⟨segment, hsegment, hread⟩ := List.mem_filterMap.mp hkv
  have hmem {t : Token} (ht : t ∈ segment.tokens) : t ∈ v.tokens :=
    mem_of_mem_argumentsOf (by rw [← splitArguments_append]; exact List.mem_append_left _ hsegment) ht
  unfold Segment.keyValue at hread
  split at hread
  · cases hread
  · next first rest htokens =>
    simp only at hread
    split at hread
    · obtain rfl := Option.some.inj hread
      exact hl.atLevel_bound (hmem (htokens ▸ List.mem_cons_self)) (.inl rfl)
    · next value hvalue =>
      obtain rfl := Option.some.inj hread
      obtain ⟨i, _, hi⟩ := Option.bind_eq_some_iff.mp hvalue
      exact hl.atLevel_bound (hmem (List.mem_of_getElem? hi)) (.inl rfl)

/-- The place of an entry is at the level of its call. -/
theorem atLevel_of_entryOf (hl : v.Laid source) (hread : v.read query code source = .ok (v.entryOf query code source))
    (h : v.entryOf query code source = some entry) : v.AtLevel entry.position.offset := by
  cases hr : query.reading code (v.call source (byteLineStarts source)) with
  | nothing => rw [entryOf_nothing hr] at h; cases h
  | message => exact ((offers_of_message hr h).1.atLevel hl).2
  | argument =>
    have hentry := argumentEntry_of_read hr hread
    rw [h] at hentry
    obtain ⟨hmessage, ⟨kv, hfind, hgiven⟩ | ⟨_, rfl⟩⟩ := argumentEntry_cases hentry
    · have hplace := atLevel_of_given hl (List.mem_of_find?_eq_some hfind)
      unfold givenEntry at hgiven
      cases hid : readId (Text.trim kv.valueText.toList) with
      | error e => rw [hid] at hgiven; cases hgiven
      | ok id => rw [hid] at hgiven; cases hgiven; exact hplace
    · obtain ⟨_, _, _, _, hsome⟩ := tokens_ne_nil hmessage
      exact hl.atLevel_insertAt hsome _

/-- Of two calls that are apart, the first has its place before that of the second, unless it is behind the arguments
of the second or that of the second is before the arguments of the first. -/
theorem Apart.le_iff (hapart : v.Apart w) {a b : Int} (ha : v.AtLevel a) (hb : w.AtLevel b) :
    a ≤ b ↔ ¬ (w.stop ≤ a ∨ b ≤ v.start) := by
  obtain ⟨hstart, hstop, htrees⟩ := ha
  obtain ⟨hstart', hstop', htrees'⟩ := hb
  rcases hapart with h | h | ⟨t, ht, hk, hlo, hhi⟩ | ⟨t, ht, hk, hlo, hhi⟩
  · omega
  · omega
  · rcases htrees t ht hk with h | h <;> omega
  · rcases htrees' t ht hk with h | h <;> omega

/-- Neither call has a reference, and the place of the first comes behind the arguments of the second or the place of
the second before those of the first. -/
def Overtakes (query : Query) (code : List Char) (source : Bytes) (v w : Invocation) : Prop :=
  ∃ e ∈ v.entryOf query code source, ∃ f ∈ w.entryOf query code source,
    e.hasReference = false ∧ f.hasReference = false ∧ (w.stop ≤ e.position.offset ∨ f.position.offset ≤ v.start)

instance : Decidable (v.Overtakes query code source w) := inferInstanceAs (Decidable (∃ e ∈ _, _))

end Invocation

namespace Work

variable {α β : Type} {w : Work α} {k : α → Work β} {n : Notice}

/-- The work does not give the notice. -/
def Withholds (n : Notice) (w : Work α) : Prop := ∀ s, n ∉ s.notices → n ∉ (w.run s).2.notices

namespace Withholds

theorem pure (a : α) : Withholds n (pure a : Work α) := fun _ h => h

theorem bind (hw : Withholds n w) (hk : ∀ a, Withholds n (k a)) : Withholds n (w >>= k) :=
  fun s h => hk _ _ (hw s h)

theorem report {m : Notice} (hne : n ≠ m) : Withholds n (Session.report m) := fun s h => by
  rw [Session.run_report, Session.noting, List.mem_append, List.mem_singleton]
  exact not_or.mpr ⟨h, hne⟩

theorem setDisk (d : Disk) : Withholds n (Session.setDisk d) := fun _ h => h

theorem get_bind {f : Session → Work α} (h : ∀ s, Withholds n (f s)) : Withholds n (get >>= f) := fun s hs => h s s hs

theorem forM {γ : Type} {f : γ → Work Unit} (h : ∀ c, Withholds n (f c)) (l : List γ) : Withholds n (l.forM f) := by
  induction l with
  | nil => exact pure ()
  | cons c l ih => exact bind (h c) fun _ => ih

end Withholds

end Work

namespace Insertion

variable {device : Device} {path : Path} {contents : Bytes} {entries targets : List Entry} {name : String}

theorem isAscending_of_pairwise {offsets : List Int} (h : offsets.Pairwise (· ≤ ·)) : isAscending offsets = true := by
  induction offsets with
  | nil => rfl
  | cons a rest ih =>
    cases rest with
    | nil => rfl
    | cons b rest =>
      obtain ⟨hfirst, hrest⟩ := List.pairwise_cons.mp h
      rw [isAscending, Bool.and_eq_true, decide_eq_true_eq]
      exact ⟨hfirst b List.mem_cons_self, ih hrest⟩

theorem updateFile_withholds (device : Device) (path : Path) (contents : Bytes) (targets : List Entry) (c : Counter) :
    (updateFile device path contents targets c).Withholds (.outOfOrder name) := by
  refine .get_bind fun s => ?_
  split
  · exact .bind (.report (by simp)) fun _ => .pure _
  · refine .bind (.setDisk _) fun _ => ?_
    split
    all_goals exact .bind (.report (by simp)) fun _ => .pure _

/-- Where the places go up, no file is refused for their order. -/
theorem annotate_withholds (h : isAscending (targets.map fun e => e.position.offset) = true)
    (counter : Option Counter) : (annotate device path contents targets counter).Withholds (.outOfOrder name) := by
  unfold annotate
  split
  · exact .bind (.report (by simp)) fun _ => .pure _
  · simp only [h, Bool.not_true, Bool.false_eq_true, if_false]
    split
    · exact .bind (.report (by simp)) fun _ => .pure _
    · exact .bind (updateFile_withholds _ _ _ _ _) fun _ => .pure _

theorem visit_withholds (h : isAscending ((pending entries).map fun e => e.position.offset) = true)
    (counter : Option Counter) : (visit device counter path contents entries).Withholds (.outOfOrder name) := by
  refine .bind (.forM (fun _ => .report (by simp)) _) fun _ => ?_
  split
  · exact .pure _
  · exact .bind (annotate_withholds h counter) fun _ => .pure _

end Insertion

/-- Where the entries without a reference have their places, in the order of the entries. -/
def lackingPlaces (entries : List Entry) : List Int :=
  (entries.filter fun e => !e.hasReference).map fun e => e.position.offset

section

variable {query : Query} {source : Bytes} {code : List Char} {n : Node} {entries : List Entry}

/-- The places of the entries without a reference go up if and only if no call overtakes one that is named later. Where
they do, a file is never refused for the order of its places. -/
theorem places_ascend_iff (hcode : Utf8.decode source = .ok code) (hfits : n.Fits source) {notices : List Notice}
    (hfound : (entriesInTree query source n).run.run [] = (.ok entries, notices)) :
    ((lackingPlaces entries).Pairwise (· ≤ ·) ↔
      (n.sortedInvocations source).Pairwise fun v w => ¬ v.Overtakes query code source w) ∧
    ((lackingPlaces entries).Pairwise (· ≤ ·) → ∀ device counter path contents name,
      (Insertion.visit device counter path contents entries).Withholds (.outOfOrder name)) := by
  obtain ⟨hentries, hread⟩ := entries_of_found hcode hfits (congrArg Prod.fst hfound)
  have hplaces : (n.sortedInvocations source).Pairwise fun v w =>
      ∀ e ∈ v.entryOf query code source, ∀ f ∈ w.entryOf query code source,
        (e.position.offset ≤ f.position.offset ↔ ¬ (w.stop ≤ e.position.offset ∨ f.position.offset ≤ v.start)) := by
    refine (Node.sortedInvocations_apart hfits).imp_of_mem fun {v w} hv hw hapart e he f hf => ?_
    exact hapart.le_iff (Invocation.atLevel_of_entryOf (hfits.laid hv) (hread v hv) he)
      (Invocation.atLevel_of_entryOf (hfits.laid hw) (hread w hw) hf)
  refine ⟨?_, fun h device counter path contents name => Insertion.visit_withholds
    (Insertion.isAscending_of_pairwise (h.sublist (List.filter_sublist.map _))) counter⟩
  rw [lackingPlaces, List.pairwise_map, List.pairwise_filter, hentries, List.pairwise_filterMap]
  constructor <;> intro h
  · refine (h.and hplaces).imp ?_
    rintro v w ⟨hle, hiff⟩ ⟨e, he, f, hf, helacks, hflacks, hover⟩
    exact (hiff e he f hf).mp (hle e he f hf (by simp [helacks]) (by simp [hflacks])) hover
  · refine (h.and hplaces).imp ?_
    rintro v w ⟨hnot, hiff⟩ e he f hf helacks hflacks
    rw [Bool.not_eq_true'] at helacks hflacks
    exact (hiff e he f hf).mpr fun hover => hnot ⟨e, he, f, hf, helacks, hflacks, hover⟩

end

/-- Calls of `m` are looked for, with references in messages. -/
def messageOnlyQuery : Query := { argumentQuery with inArguments := false }

/-- A call among the format arguments of another one, and a call among the key-value arguments of another one. -/
def callInFormat : Bytes := Bytes.ofString "m!(\"a\",m!(\"b\"))"

def callInKeyValue : Bytes := Bytes.ofString "m!(k=m!(\"a\");\"b\")"

def callInFormatTree : Node :=
  .mk .other 0 15 true false false
    [.mk .macroInvocation 0 15 true false false
      [.mk .identifier 0 1 true false true [],
        .mk .tokenTree 2 15 true false false
          [.mk .stringLiteral 3 6 true false false [], .mk .identifier 7 8 true false false [],
            .mk .tokenTree 9 14 true false false [.mk .stringLiteral 10 13 true false false []]]]]

def callInKeyValueTree : Node :=
  .mk .other 0 17 true false false
    [.mk .macroInvocation 0 17 true false false
      [.mk .identifier 0 1 true false true [],
        .mk .tokenTree 2 17 true false false
          [.mk .identifier 3 4 true false false [], .mk .identifier 5 6 true false false [],
            .mk .tokenTree 7 12 true false false [.mk .stringLiteral 8 11 true false false []],
            .mk .stringLiteral 13 16 true false false []]]]

theorem parse_callInFormat : Rust.parse callInFormat = callInFormatTree ∧
    Rust.parse callInKeyValue = callInKeyValueTree := by
  decide +kernel

/-- The places of a call and of one behind its message go up. -/
theorem places_ascend_in_format :
    ∃ entries notices, (findEntries messageOnlyQuery callInFormat).run.run [] =
        (.ok entries, notices) ∧
      lackingPlaces entries = [4, 11] ∧
      ((Rust.parse callInFormat).sortedInvocations callInFormat).Pairwise (fun v w =>
        ¬ v.Overtakes messageOnlyQuery "m!(\"a\",m!(\"b\"))".toList callInFormat w) ∧
      ∀ device counter path contents name,
        (Insertion.visit device counter path contents entries).Withholds (.outOfOrder name) := by
  have hcode : Utf8.decode callInFormat = .ok "m!(\"a\",m!(\"b\"))".toList := by rfl
  have htree : callInFormatTree.Fits callInFormat ∧
      (callInFormatTree.invocations callInFormat).Pairwise (fun a b => a.nameStart ≤ b.nameStart) ∧
      ((callInFormatTree.invocations callInFormat).mapM (Invocation.read messageOnlyQuery
        "m!(\"a\",m!(\"b\"))".toList callInFormat)).toOption.map (·.filterMap id) =
        some [⟨⟨4, 1, 5⟩, none, "m", .message, none, none⟩, ⟨⟨11, 1, 12⟩, none, "m", .message, none, none⟩] := by
    decide +kernel
  rw [← parse_callInFormat.1] at htree
  obtain ⟨hfits, hsorted, hread⟩ := htree
  have hfound := found_of_reads hcode hfits hsorted hread []
  obtain ⟨hiff, hheard⟩ := places_ascend_iff hcode hfits (Prod.ext hfound rfl)
  exact ⟨_, _, Prod.ext hfound rfl, by decide, hiff.mp (by decide), hheard (by decide)⟩

/-- The place of a call is behind that of one among its key-value arguments, which is named later: the file is
refused. -/
theorem key_value_call_refused :
    let entries : List Entry :=
      [⟨⟨14, 1, 15⟩, none, "m", .message, none, none⟩, ⟨⟨9, 1, 10⟩, none, "m", .message, none, none⟩]
    let path : Path := ⟨.none, ["a.rs"]⟩
    let s : Session := ⟨⟨⟨[(["a.rs"], .file callInKeyValue 0o644)]⟩, [], []⟩, [], .never, "0"⟩
    ((findEntries messageOnlyQuery callInKeyValue).run.run []).1 = .ok entries ∧
      (Insertion.visit .sound (some ⟨1⟩) path callInKeyValue entries).run s =
        ((⟨true, 0⟩, some ⟨1⟩), s.noting [.outOfOrder "a.rs"]) := by
  have hcode : Utf8.decode callInKeyValue = .ok "m!(k=m!(\"a\");\"b\")".toList := by rfl
  have htree : callInKeyValueTree.Fits callInKeyValue ∧
      (callInKeyValueTree.invocations callInKeyValue).Pairwise (fun a b => a.nameStart ≤ b.nameStart) ∧
      ((callInKeyValueTree.invocations callInKeyValue).mapM (Invocation.read messageOnlyQuery
        "m!(k=m!(\"a\");\"b\")".toList callInKeyValue)).toOption.map (·.filterMap id) =
        some [⟨⟨14, 1, 15⟩, none, "m", .message, none, none⟩, ⟨⟨9, 1, 10⟩, none, "m", .message, none, none⟩] := by
    decide +kernel
  rw [← parse_callInFormat.2] at htree
  obtain ⟨hfits, hsorted, hread⟩ := htree
  exact ⟨found_of_reads hcode hfits hsorted hread [], rfl⟩

end LogRef
