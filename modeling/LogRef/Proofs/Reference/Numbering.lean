import LogRef.Proofs.Reference.Marks
import LogRef.Proofs.Run.Splice
import LogRef.Proofs.Syntax.Message
import LogRef.Reference.Find

/-!
# Ids for the entries of a source

Handing out ids to the pending entries of a source is an edit of it: at the place of every such entry goes the
text for its id. The places of two entries are never the same, since every call has its own level.
-/
namespace LogRef

namespace Insertion

/-- The id for the entry at a place, when ids are handed out from `start` on. -/
def idAt (start : Nat) (targets : List Entry) (p : Nat) : Nat := start + targets.findIdx (·.place == p)

/-- The references of entries after ids from `start` on were handed out to those without one. -/
def assigned : (start : Nat) → List Entry → List (Option Int)
  | _, [] => []
  | start, e :: rest =>
    if e.hasReference then e.reference :: assigned start rest
    else some (start : Int) :: assigned (start + 1) rest

variable {entries targets : List Entry} {e f : Entry} {start : Nat}

theorem mem_pending : e ∈ pending entries ↔ e ∈ entries ∧ e.hasReference = false ∧ e.isUsable = true := by
  simp only [pending, List.mem_filter, Bool.not_eq_true', and_assoc]

theorem pending_cons_of_hasReference (h : e.hasReference = true) :
    pending (e :: entries) = pending entries := by
  simp [pending, h]

theorem pending_cons_of_pending (h : e.hasReference = false) (hu : e.isUsable = true) :
    pending (e :: entries) = e :: pending entries := by
  simp [pending, h, hu]

theorem idAt_cons_self : idAt start (e :: targets) e.place = start := by
  simp [idAt, List.findIdx_cons]

theorem idAt_cons_ne {p : Nat} (h : e.place ≠ p) :
    idAt start (e :: targets) p = idAt (start + 1) targets p := by
  rw [idAt, idAt, List.findIdx_cons, beq_eq_false_iff_ne.mpr h, cond_false]
  omega

/-- The text at the place of an entry is the one for its id. -/
theorem textAt_marksFrom (hdistinct : (targets.map Entry.place).Nodup) (he : e ∈ targets) :
    textAt (marksFrom start targets) e.place =
      (e.markFor (idAt start targets e.place : Nat)).toList := by
  induction targets generalizing start with
  | nil => cases he
  | cons f targets ih =>
    rw [List.map_cons, List.nodup_cons] at hdistinct
    rw [marksFrom]
    rcases List.mem_cons.mp he with rfl | he
    · rw [textAt_cons_self, idAt_cons_self]
    · have hne : f.place ≠ e.place := fun heq => hdistinct.1 (heq ▸ List.mem_map_of_mem he)
      rw [textAt_cons_ne (Ne.symm hne), idAt_cons_ne hne, ih hdistinct.2 he]

theorem assigned_eq (husable : ∀ e ∈ entries, e.hasReference = false → e.isUsable = true)
    (hdistinct : ((pending entries).map Entry.place).Nodup) :
    assigned start entries = entries.map fun e =>
      if e.hasReference then e.reference else some (idAt start (pending entries) e.place : Int) := by
  induction entries generalizing start with
  | nil => rfl
  | cons e entries ih =>
    have husable' := fun f hf => husable f (List.mem_cons_of_mem e hf)
    cases he : e.hasReference with
    | true =>
      rw [pending_cons_of_hasReference he] at hdistinct
      simp only [assigned, List.map_cons, he, if_true, pending_cons_of_hasReference he,
        ih husable' hdistinct]
    | false =>
      have hpending : pending (e :: entries) = e :: pending entries :=
        pending_cons_of_pending he (husable e List.mem_cons_self he)
      rw [hpending, List.map_cons, List.nodup_cons] at hdistinct
      simp only [assigned, List.map_cons, he, Bool.false_eq_true, if_false, hpending, idAt_cons_self,
        ih husable' hdistinct.2, List.cons.injEq, true_and]
      refine List.map_congr_left fun f hf => ?_
      cases hr : f.hasReference with
      | true => rfl
      | false =>
        have hmem := mem_pending.mpr ⟨hf, hr, husable' f hf hr⟩
        have hne : e.place ≠ f.place := fun heq => hdistinct.1 (heq ▸ List.mem_map_of_mem hmem)
        rw [idAt_cons_ne hne]

/-- Every id that is written is below the next one. -/
theorem idAt_lt {contents data : Bytes} {c : Counter}
    (hs : splice contents 0 targets ⟨start⟩ = (.ok data, c)) (he : e ∈ targets) :
    (idAt start targets e.place : Int) < c.next := by
  have hnext : c.next = (start : Int) + targets.length := (splice_counter hs).1
  have hidx : targets.findIdx (·.place == e.place) < targets.length :=
    List.findIdx_lt_length_of_exists ⟨e, he, by simp⟩
  simp only [idAt]
  omega

/-- Every id that is written fits. -/
theorem idAt_le {contents data : Bytes} {c : Counter}
    (hs : splice contents 0 targets ⟨start⟩ = (.ok data, c)) (he : e ∈ targets) :
    idAt start targets e.place ≤ greatestId := by
  have hlt := idAt_lt hs he
  have hb := (splice_counter hs).2 (List.ne_nil_of_mem he)
  omega

end Insertion

theorem Entry.markFor_ne_nil (e : Entry) (id : Nat) : (e.markFor id).toList ≠ [] := by
  have hid : (toString (id : Int)).toList ≠ [] := by
    rw [toList_toString]
    exact List.length_pos_iff.mp Nat.length_toDigits_pos
  intro h
  unfold markFor at h
  split at h <;> simp only [String.toList_append, List.append_eq_nil_iff] at h <;> exact hid h.1.2

/-- The tokens of a new argument that begins at an offset. -/
def argumentTokens (start : Int) (id : Nat) (separator : Char) : List Token :=
  let digits := Utf8.encode (digitsOf id)
  let stop := start + 6 + digits.length
  [⟨.word, start, start + 3, Bytes.ofString referenceKey⟩, ⟨.punct, start + 4, start + 5, [asciiByte '=']⟩,
    ⟨.atom, start + 6, stop, digits⟩, ⟨.punct, stop, stop + 1, [asciiByte separator]⟩]

/-- The separator of a new argument. -/
def Entry.separator (e : Entry) : Char := if e.after = some "; " then ';' else ','

/-- The edits that give the entries of a source ids from `start` on. -/
def numbering (start : Nat) (entries : List Entry) : Edits where
  text := Insertion.textAt (Insertion.marksFrom start (Insertion.pending entries))
  tokens p :=
    match (Insertion.pending entries).find? (·.place == p) with
    | none => []
    | some e =>
      if e.site = .newArgument then
        argumentTokens (leftOf (fun p => Utf8.encode
          (Insertion.textAt (Insertion.marksFrom start (Insertion.pending entries)) p)) p)
          (Insertion.idAt start (Insertion.pending entries) p) e.separator
      else []

/-- The call has a message, and the place of the entry is one that it has for it: the head of the message, or
where a new argument goes. -/
def Invocation.Offers (v : Invocation) (entry : Entry) : Prop :=
  ∃ t r, messageToken v.tokens = some t ∧ t.contentRange = some r ∧
    ((entry.site = .message ∧ r.1 = entry.position.offset) ∨
      (entry.site = .newArgument ∧ argumentPlace v.start v.tokens = some entry.position.offset))

/-- Entries that come from the calls of a source, with a place for every pending one. -/
structure Offered (source : Bytes) (n : Node) (g : Invocation → Option Entry) (entries : List Entry) :
    Prop where
  fits : n.Fits source
  found : entries = (n.sortedInvocations source).filterMap g
  offers : ∀ v ∈ n.sortedInvocations source, ∀ entry, g v = some entry →
    entry ∈ Insertion.pending entries → v.Offers entry

section

variable {source : Bytes} {v : Invocation} {entry : Entry} {t : Token}

/-- The contents of a string literal begin inside of it. -/
theorem Token.Covers.contentRange_within (hc : t.Covers source) {p q : Int}
    (h : t.contentRange = some (p, q)) : t.start < p ∧ p ≤ q ∧ q < t.stop := by
  obtain ⟨lead, inner, trail, htext, _, _, _, rfl, rfl⟩ := contentRange_iff.mp h
  have hlen := Bytes.length_slice source hc.nonneg (Int.le_of_lt hc.nonempty) hc.within
  rw [← hc.text, htext] at hlen
  simp only [List.length_append, List.length_cons] at hlen
  omega

theorem Invocation.Offers.atLevel (h : v.Offers entry) (hl : v.Laid source) :
    0 ≤ entry.position.offset ∧ v.AtLevel entry.position.offset := by
  have h0 := hl.nonneg
  have hlevel : v.AtLevel entry.position.offset := by
    obtain ⟨t, ⟨p, q⟩, ht, hrange, ⟨_, rfl⟩ | ⟨_, hplace⟩⟩ := h
    · obtain ⟨hmem, hk⟩ := mem_of_messageToken ht
      have hwithin := (hl.covers t hmem).contentRange_within hrange
      exact hl.atLevel hmem (by rw [hk]; decide) hwithin.1 (by omega)
    · exact hl.atLevel_of_argumentPlace hplace
  exact ⟨by have := hlevel.1; omega, hlevel⟩

theorem Invocation.Offers.place_eq (h : v.Offers entry) (hl : v.Laid source) :
    (entry.place : Int) = entry.position.offset := Int.toNat_of_nonneg (h.atLevel hl).1

end

theorem numbering_tokens_of_message {entries : List Entry} {start p : Nat}
    (h : ∀ e ∈ Insertion.pending entries, e.place = p → e.site ≠ .newArgument) :
    (numbering start entries).tokens p = [] := by
  simp only [numbering]
  split
  · rfl
  · next e he =>
    have hmem := List.mem_of_find?_eq_some he
    have hp : (e.place == p) = true := by simpa using List.find?_some he
    rw [if_neg (h e hmem (beq_iff_eq.mp hp))]

theorem endsClosed_argumentTokens (start : Int) (id : Nat) (e : Entry) :
    EndsClosed (argumentTokens start id e.separator) := by
  intro t ht
  obtain rfl : (⟨.punct, _, _, [asciiByte e.separator]⟩ : Token) = t := Option.some.inj ht
  unfold Entry.separator
  split <;> rfl

theorem numbering_closed (start : Nat) (entries : List Entry) : (numbering start entries).Closed := by
  intro p
  simp only [numbering]
  split
  · intro t ht
    cases ht
  · split
    · exact endsClosed_argumentTokens _ _ _
    · intro t ht
      cases ht

namespace Offered

open Insertion

variable {source : Bytes} {n : Node} {g : Invocation → Option Entry} {entries : List Entry}
  {entry : Entry} {v : Invocation} {start p : Nat}

theorem exists_of_pending (h : Offered source n g entries) (he : entry ∈ pending entries) :
    ∃ v ∈ n.sortedInvocations source, g v = some entry ∧ v.Offers entry := by
  have hmem := (mem_pending.mp he).1
  rw [h.found] at hmem
  obtain ⟨v, hv, hg⟩ := List.mem_filterMap.mp hmem
  exact ⟨v, hv, hg, h.offers v hv entry hg he⟩

/-- A place at the level of a call is the place of no other call's entry. -/
theorem eq_of_atLevel (h : Offered source n g entries) (he : entry ∈ pending entries)
    (hv : v ∈ n.sortedInvocations source) (hlevel : v.AtLevel entry.place) : g v = some entry := by
  obtain ⟨w, hw, hg, hoffers⟩ := h.exists_of_pending he
  have hplace := hoffers.atLevel (h.fits.laid hw)
  rw [← hoffers.place_eq (h.fits.laid hw)] at hplace
  rw [h.fits.eq_of_atLevel (Node.mem_sortedInvocations.mp hv) (Node.mem_sortedInvocations.mp hw) hlevel
    hplace.2, hg]

theorem distinct (h : Offered source n g entries) : ((pending entries).map Entry.place).Nodup := by
  have hpair : entries.Pairwise fun a b => a ∈ pending entries → b ∈ pending entries →
      a.place ≠ b.place := by
    conv => arg 2; rw [h.found]
    rw [List.pairwise_filterMap]
    refine List.Pairwise.imp_of_mem ?_ (Node.sortedInvocations_apart h.fits)
    intro v w hv hw happart a ha b hb hap hbp heq
    have hva := h.offers v hv a ha hap
    have hwb := h.offers w hw b hb hbp
    have hv' := (hva.atLevel (h.fits.laid hv)).2
    have hw' := (hwb.atLevel (h.fits.laid hw)).2
    rw [← hva.place_eq (h.fits.laid hv), heq, hwb.place_eq (h.fits.laid hw)] at hv'
    exact happart.atLevel hv' hw'
  have hsub : (pending entries).Sublist entries :=
    (List.filter_sublist).trans List.filter_sublist
  rw [List.nodup_iff_pairwise_ne, List.pairwise_map]
  exact (hpair.sublist hsub).imp_of_mem fun ha hb hab => hab ha hb

theorem text_pending (h : Offered source n g entries) (start : Nat) (he : entry ∈ pending entries) :
    (numbering start entries).text entry.place =
      (entry.markFor (idAt start (pending entries) entry.place : Nat)).toList :=
  textAt_marksFrom h.distinct he

theorem exists_of_text (htext : (numbering start entries).text p ≠ []) :
    ∃ entry ∈ pending entries, entry.place = p := by
  refine Classical.byContradiction fun hnone => htext (textAt_marksFrom_of_not_mem fun e he hp => ?_)
  exact hnone ⟨e, he, hp⟩

/-- There is a text at the level of a call only if its entry is pending, and at its place. -/
theorem of_text_atLevel (h : Offered source n g entries) (hv : v ∈ n.sortedInvocations source)
    (hlevel : v.AtLevel p) (htext : (numbering start entries).text p ≠ []) :
    ∃ entry ∈ pending entries, g v = some entry ∧ entry.place = p := by
  obtain ⟨entry, he, rfl⟩ := exists_of_text htext
  exact ⟨entry, he, h.eq_of_atLevel he hv hlevel, rfl⟩

theorem find_pending (h : Offered source n g entries) (he : entry ∈ pending entries) :
    (pending entries).find? (·.place == entry.place) = some entry := by
  have hdistinct := h.distinct
  revert he hdistinct
  generalize pending entries = targets
  intro he hdistinct
  induction targets with
  | nil => cases he
  | cons f targets ih =>
    rw [List.map_cons, List.nodup_cons] at hdistinct
    rcases List.mem_cons.mp he with rfl | he
    · rw [List.find?_cons_of_pos (by simp)]
    · have hne : f.place ≠ entry.place := fun heq => hdistinct.1 (heq ▸ List.mem_map_of_mem he)
      rw [List.find?_cons_of_neg (by simpa using hne), ih he hdistinct.2]

theorem tokens_pending (h : Offered source n g entries) (he : entry ∈ pending entries)
    (hsite : entry.site = .newArgument) :
    (numbering start entries).tokens entry.place =
      argumentTokens ((numbering start entries).left entry.place)
        (idAt start (pending entries) entry.place) entry.separator := by
  simp only [numbering, h.find_pending he, hsite, if_true]
  rfl

/-- The edits suit the source, as long as new arguments are closed off. -/
theorem suits (h : Offered source n g entries)
    (hbreaks : ∀ p : Nat, (numbering start entries).tokens p ≠ [] → IsBreak source p ∧
      IsBreak ((numbering start entries).apply source) ((numbering start entries).right p)) :
    (numbering start entries).Suits source n := by
  refine ⟨fun p htext => ?_, fun p htokens htext => htokens ?_, fun p => ?_, hbreaks⟩
  · obtain ⟨entry, he, rfl⟩ := exists_of_text htext
    obtain ⟨v, hv, hg, hoffers⟩ := h.exists_of_pending he
    have hl := h.fits.laid hv
    have hplace := hoffers.place_eq hl
    refine ⟨v, Node.mem_sortedInvocations.mp hv, ?_⟩
    obtain ⟨t, ⟨p, q⟩, ht, hrange, ⟨hsite, hp⟩ | ⟨hsite, hargument⟩⟩ := hoffers
    · obtain ⟨hmem, hk⟩ := mem_of_messageToken ht
      obtain rfl : p = (entry.place : Int) := hp.trans hplace.symm
      have hwithin := (hl.covers t hmem).contentRange_within hrange
      refine Or.inl ⟨t, hmem, hk, hwithin.1, by omega, ?_, q, hrange⟩
      refine numbering_tokens_of_message fun f hf hfp => ?_
      have hsame := (h.find_pending hf).symm.trans (hfp ▸ h.find_pending he)
      rw [Option.some.inj hsame, hsite]
      decide
    · refine Or.inr ⟨?_, hplace.symm ▸ hargument, t, mem_of_messageToken ht⟩
      rw [h.tokens_pending he hsite]
      exact List.cons_ne_nil _ _
  · refine numbering_tokens_of_message fun e he hp => ?_
    rw [← hp, h.text_pending start he] at htext
    exact absurd htext (Entry.markFor_ne_nil _ _)
  · exact numbering_closed start entries p

theorem offset_nonneg (h : Offered source n g entries) (he : entry ∈ pending entries) :
    0 ≤ entry.position.offset := by
  obtain ⟨v, hv, _, hoffers⟩ := h.exists_of_pending he
  exact (hoffers.atLevel (h.fits.laid hv)).1

theorem place_lt (h : Offered source n g entries) (he : entry ∈ pending entries) :
    entry.place < source.length := by
  obtain ⟨v, hv, _, hoffers⟩ := h.exists_of_pending he
  have hl := h.fits.laid hv
  have hlevel := (hoffers.atLevel hl).2
  have hplace := hoffers.place_eq hl
  have := hlevel.2.1
  have := hl.within
  omega

/-- Places that never go back go up. -/
theorem places_up (h : Offered source n g entries)
    (hup : isAscending ((pending entries).map fun e => e.position.offset) = true) :
    ((pending entries).map Entry.place).Pairwise (· < ·) := by
  have hle := pairwise_of_isAscending hup
  have hne := h.distinct
  rw [List.nodup_iff_pairwise_ne, List.pairwise_map] at hne
  rw [List.pairwise_map] at hle ⊢
  refine List.Pairwise.imp_of_mem (fun {a b} ha hb hab => ?_) (hle.and hne)
  have ha0 := h.offset_nonneg ha
  have hb0 := h.offset_nonneg hb
  have hne : a.place ≠ b.place := hab.2
  unfold Entry.place at hne ⊢
  omega

/-- What is spliced is the source, edited. -/
theorem splice_eq_apply (h : Offered source n g entries)
    (hup : isAscending ((pending entries).map fun e => e.position.offset) = true) {data : Bytes}
    {c : Counter} (hs : splice source 0 (pending entries) ⟨start⟩ = (.ok data, c)) :
    data = (numbering start entries).apply source :=
  splice_eq hs (fun _ he => h.offset_nonneg he) (h.places_up hup) (fun _ _ => Nat.zero_le _)
    fun _ he => h.place_lt he

end Offered

end LogRef
