import LogRef.Proofs.Reference.Numbering
import LogRef.Proofs.Reference.Reading
import LogRef.Proofs.Run.Visit

/-!
# Completed entries

The entry of a call that got an id has that id, and the entry of any other call is as it was, in all that a
later run looks at.
-/
namespace LogRef

/-- Where a reference lives once it is written. -/
def Site.settled : Site → Site
  | .newArgument => .givenArgument
  | site => site

/-- The entry of the same call afterwards: one that was to get an id has the one for its place, and any other has
what it had. -/
structure Entry.Completes (start : Nat) (targets : List Entry) (e' e : Entry) : Prop where
  macroName : e'.macroName = e.macroName
  site : e'.site = e.site.settled
  reference : e'.reference =
    if e.hasReference || !e.isUsable then e.reference else some (Insertion.idAt start targets e.place : Int)

/-- The text for an entry goes between two characters, where it changes no directive. -/
structure Entry.Sits (code : List Char) (e : Entry) : Prop where
  guarded : ∃ i, i ≤ code.length ∧ byteOffset code i = e.place ∧
    Guards (lastLine (code.take i)) code[i]?
  insertable : ∀ id : Nat, Insertable (e.markFor id).toList ∧ '\n' ∉ (e.markFor id).toList

section

variable {source : Bytes} {code : List Char} {v : Invocation} {entry : Entry} {query : Query}

theorem messageEntry_eq (call : Call) : messageEntry call =
    call.message.map fun m => Entry.ofMessage call.name m.span m.text.toList := rfl

/-- The contents of a string literal begin behind a quote. -/
theorem Token.Covers.quote_before {t : Token} (hc : t.Covers source) {p : Nat} {q : Int}
    (h : t.contentRange = some ((p : Int), q)) : ∃ k, p = k + 1 ∧ source[k]? = some quoteByte := by
  obtain ⟨hstart, _, _, hquote, _⟩ := hc.quotes h
  have h0 := hc.nonneg
  exact ⟨((p : Int) - 1).toNat, by omega, hquote⟩

theorem foreign_byte {f : Char} (h : isForeign f = true) : (asciiByte f).toNat = f.toNat ∧ f.toNat < 0x80 ∧
    isWordByte (asciiByte f) = false ∧ f ≠ '\n' := by
  rcases isForeign_cases h with rfl | rfl | rfl | rfl | rfl | rfl <;> decide

/-- Behind a quote, a comma or an opening bracket a text is guarded. -/
theorem guarded_behind (hcode : Utf8.decode source = .ok code) {f : Char} (hf : isForeign f = true)
    (hslash : f ≠ '/') {k : Nat} (hb : source[k]? = some (asciiByte f)) :
    ∃ i, i ≤ code.length ∧ byteOffset code i = k + 1 ∧ Guards (lastLine (code.take i)) code[i]? := by
  obtain ⟨hn, hascii, _, hline⟩ := foreign_byte hf
  rw [← Utf8.encode_of_decode hcode] at hb
  obtain ⟨i, c, hc, hcn, _, hi⟩ := char_of_ascii hb (by omega)
  obtain rfl : c = f := Char.toNat_inj.mp (hcn.trans hn)
  refine ⟨i + 1, (List.getElem?_eq_some_iff.mp hc).1, hi, Or.inr ?_⟩
  rw [List.take_add_one, hc, Option.toList_some, lastLine_append hline]
  exact ⟨_, c, [], rfl, hf, fun _ hx => (List.not_mem_nil hx).elim, fun h => absurd h hslash⟩

theorem Invocation.Offers.sits_message (h : v.Offers entry) (hl : v.Laid source)
    (hsite : entry.site = .message) (hcode : Utf8.decode source = .ok code)
    (hb : entry.before = none) (ha : entry.after = none) : entry.Sits code := by
  refine ⟨?_, fun id => Entry.insertable_message hb ha id⟩
  have hplace := h.place_eq hl
  obtain ⟨t, ⟨p, q⟩, ht, hrange, ⟨_, hp⟩ | ⟨hnew, _⟩⟩ := h
  · obtain rfl : p = (entry.place : Int) := hp.trans hplace.symm
    obtain ⟨k, hk, hquote⟩ := (hl.covers t (mem_of_messageToken ht).1).quote_before hrange
    exact hk ▸ guarded_behind hcode (f := '"') (by decide) (by decide) hquote
  · rw [hsite] at hnew
    cases hnew

/-- A call that is read for its message has the head of it as its place. -/
theorem Invocation.offers_of_message
    (hr : query.reading code (v.call source (byteLineStarts source)) = .message)
    (hg : v.entryOf query code source = some entry) :
    v.Offers entry ∧ entry.site = .message ∧ entry.before = none ∧ entry.after = none := by
  rw [entryOf_message hr, messageEntry_eq, call_message] at hg
  obtain ⟨m, hm, rfl⟩ := Option.map_eq_some_iff.mp hg
  obtain ⟨t, ht, hm⟩ := Option.bind_eq_some_iff.mp hm
  obtain ⟨r, hr, rfl⟩ := Option.map_eq_some_iff.mp hm
  exact ⟨⟨t, r, ht, hr, Or.inl ⟨rfl, rfl⟩⟩, rfl, rfl, rfl⟩

end

namespace Offered

open Insertion

variable {source : Bytes} {n : Node} {g : Invocation → Option Entry} {entries : List Entry}
  {entry : Entry} {v : Invocation} {start : Nat} {code : List Char}

theorem betweenChars (hsits : ∀ e ∈ pending entries, e.Sits code) :
    (numbering start entries).BetweenChars code := by
  intro p htext
  obtain ⟨e, he, rfl⟩ := exists_of_text htext
  obtain ⟨i, hi, hplace, _⟩ := (hsits e he).guarded
  exact ⟨i, hi, hplace.symm⟩

theorem oneLine (h : Offered source n g entries) (hsits : ∀ e ∈ pending entries, e.Sits code) (p : Nat) :
    '\n' ∉ (numbering start entries).text p := by
  intro hmem
  obtain ⟨e, he, rfl⟩ := exists_of_text (List.ne_nil_of_mem hmem)
  rw [h.text_pending start he] at hmem
  exact ((hsits e he).insertable _).2 hmem

theorem fitsLine (h : Offered source n g entries) (hcode : Utf8.decode source = .ok code)
    (hsits : ∀ e ∈ pending entries, e.Sits code) {i : Nat}
    (htext : (numbering start entries).charText code i ≠ []) :
    FitsLine code i ((numbering start entries).charText code i) := by
  obtain ⟨e, he, hplace⟩ := exists_of_text htext
  obtain ⟨j, hj, hjplace, hguards⟩ := (hsits e he).guarded
  have hlt := h.place_lt he
  have hi : i ≤ code.length := by
    refine Nat.le_of_not_lt fun hgt => ?_
    rw [hplace, byteOffset, List.take_of_length_le (Nat.le_of_lt hgt), Utf8.encode_of_decode hcode] at hlt
    exact Nat.lt_irrefl _ hlt
  obtain rfl := byteOffset_inj hi hj (hplace.symm.trans hjplace.symm)
  rw [Edits.charText, ← hplace, h.text_pending start he]
  exact ⟨((hsits e he).insertable _).1, ((hsits e he).insertable _).2, hguards⟩

/-- A message with the text for its entry at the head has the reference it should have. -/
theorem completes_ofMessage (h : Offered source n g entries)
    (hids : ∀ e ∈ pending entries, idAt start (pending entries) e.place ≤ greatestId)
    (hv : v ∈ n.sortedInvocations source) {name : String} {span : Span} {text : List Char}
    (hg : g v = some (Entry.ofMessage name span text)) {k : Nat} (hk : span.start = k)
    (hlevel : v.AtLevel (k : Int)) (span' : Span) :
    Entry.Completes start (pending entries)
      (Entry.ofMessage name span' ((numbering start entries).text k ++ text))
      (Entry.ofMessage name span text) := by
  have hplace : (Entry.ofMessage name span text).place = k := by
    rw [Entry.place]
    change span.start.toNat = k
    rw [hk, Int.toNat_natCast]
  have husable : (Entry.ofMessage name span text).isUsable = true := rfl
  refine ⟨rfl, rfl, ?_⟩
  rw [husable, Bool.not_true, Bool.or_false]
  cases href : (Entry.ofMessage name span text).hasReference with
  | true =>
    have hnone : (numbering start entries).text k = [] := by
      refine Decidable.byContradiction fun htext => ?_
      obtain ⟨entry, he, hentry, _⟩ := h.of_text_atLevel hv hlevel htext
      obtain rfl := Option.some.inj (hg.symm.trans hentry)
      rw [(mem_pending.mp he).2.1] at href
      cases href
    rw [hnone, if_pos rfl]
    rfl
  | false =>
    have hmem : Entry.ofMessage name span text ∈ entries := by
      rw [h.found]
      exact List.mem_filterMap.mpr ⟨v, hv, hg⟩
    have he := mem_pending.mpr ⟨hmem, href, rfl⟩
    have hid := hids _ he
    have htext := h.text_pending start he
    rw [Entry.markFor_message rfl rfl, hplace] at htext
    rw [hplace] at hid
    rw [if_neg Bool.false_ne_true, hplace, htext]
    simp only [Entry.ofMessage, List.append_assoc, List.cons_append, List.nil_append, readMark_mark hid]
    rfl

/-- The message of a call is read with its reference, old or new. -/
theorem completes_message (h : Offered source n g entries) (hs : (numbering start entries).Suits source n)
    (hids : ∀ e ∈ pending entries, idAt start (pending entries) e.place ≤ greatestId)
    (hv : v ∈ n.sortedInvocations source) {lines lines' : List Nat}
    (hg : g v = messageEntry (v.call source lines))
    (htoken : messageToken (v.grown (numbering start entries) ((numbering start entries).apply source)).tokens =
      (messageToken v.tokens).map (Token.moved (numbering start entries)
        ((numbering start entries).apply source))) :
    Option.Rel (Entry.Completes start (pending entries))
      (messageEntry ((v.grown (numbering start entries) ((numbering start entries).apply source)).call
        ((numbering start entries).apply source) lines')) (g v) := by
  have hl := h.fits.laid hv
  have hnew := hs.message h.fits (Node.mem_sortedInvocations.mp hv) htoken lines'
  rw [messageEntry_eq, Invocation.call_message] at hg
  rw [messageEntry_eq, hnew]
  cases ht : messageToken v.tokens with
  | none => rw [hg, ht]; exact .none
  | some t =>
    cases hr : t.contentRange with
    | none =>
      rw [hg, ht]
      simp only [Option.bind_some, hr, Option.map_none]
      exact .none
    | some r =>
      obtain ⟨p, q⟩ := r
      rw [ht] at hg
      simp only [Option.bind_some, hr, Option.map_some] at hg ⊢
      rw [hg]
      refine .some ?_
      have hmem := (mem_of_messageToken ht).1
      have hk := (mem_of_messageToken ht).2
      have hwithin := (hl.covers t hmem).contentRange_within hr
      have h0 := (hl.covers t hmem).nonneg
      obtain ⟨k, rfl⟩ := Int.eq_ofNat_of_zero_le (show 0 ≤ p by omega)
      have hlevel : v.AtLevel (k : Int) := hl.atLevel hmem (by rw [hk]; decide) hwithin.1 (by omega)
      have hdone := h.completes_ofMessage hids hv hg rfl hlevel
        (Span.ofRange lines' ((numbering start entries).left k) ((numbering start entries).right q))
      rw [String.toList_ofList, Int.toNat_natCast]
      rw [Bytes.lossyText, String.toList_ofList] at hdone ⊢
      exact hdone

theorem decode_apply (hcode : Utf8.decode source = .ok code) (hsits : ∀ e ∈ pending entries, e.Sits code) :
    Utf8.decode ((numbering start entries).apply source) =
      .ok (weave ((numbering start entries).charText code) 0 code) := by
  rw [Utf8.decode_eq_ok_iff, ← Edits.apply_encode (betweenChars hsits), Utf8.encode_of_decode hcode]

theorem apply_of_none (h : pending entries = []) : (numbering start entries).apply source = source := by
  refine weave_eq_self _ fun j _ _ => Edits.mark_eq_nil ?_
  refine Decidable.byContradiction fun htext => ?_
  obtain ⟨e, he, _⟩ := exists_of_text htext
  rw [h] at he
  cases he

/-- A visit that does not fail leaves the edited source in place of the source. -/
theorem rewritten_of_visit (h : Offered source n g entries) {device : Device} {path : Path} {s s' : Session}
    {result : Insertion} {counter : Option Counter} (hread : s.disk.read path = .ok source)
    (hvisit : (visit device (some ⟨start⟩) path source entries).run s = ((result, counter), s'))
    (hok : result.hasFailed = false) :
    (∀ e ∈ entries, e.hasReference = false → e.isUsable = true) ∧
      (∀ e ∈ pending entries, idAt start (pending entries) e.place ≤ greatestId) ∧
      s.disk.Rewritten path source ((numbering start entries).apply source) s'.disk := by
  obtain ⟨result', c', s1, hrun, hvisited⟩ := visit_visited device ⟨start⟩ path source entries s
  obtain ⟨hresult, rfl⟩ := Prod.mk.inj (hrun.symm.trans hvisit)
  obtain ⟨rfl, _⟩ := Prod.mk.inj hresult
  have husable (hempty : (!(unusable entries).isEmpty) = false) :
      ∀ e ∈ entries, e.hasReference = false → e.isUsable = true := by
    intro e he href
    refine Decidable.byContradiction fun hu => ?_
    have hmem : e ∈ unusable entries := by
      simp only [unusable, List.mem_filter, href, hu]
      exact ⟨⟨he, rfl⟩, rfl⟩
    rw [Bool.not_eq_false', List.isEmpty_iff] at hempty
    rw [hempty] at hmem
    cases hmem
  generalize s1.disk = after at hvisited ⊢
  cases hvisited with
  | idle hnone =>
    refine ⟨husable hok, fun e he => ?_, Or.inl ⟨apply_of_none hnone, rfl⟩⟩
    rw [hnone] at he
    cases he
  | failed => cases hok
  | written hsome hup hlast hdata hfile =>
    obtain ⟨place, mode, htarget⟩ := Disk.leadsToFile_of_read hread
    refine ⟨husable hok, fun e he => idAt_le hdata he, Or.inr ⟨place, mode, htarget, ?_⟩⟩
    rw [hfile.file htarget, h.splice_eq_apply hup hdata]

/-- Where every call is read with the reference it should have, so is the whole source. -/
theorem entries_completed {query : Query} {n' : Node} {code' : List Char} (h : Offered source n g entries)
    (hs : (numbering start entries).Suits source n) (hm : n.Moves (numbering start entries) false n')
    (hr : n'.ReadsArguments (numbering start entries) ((numbering start entries).apply source))
    (hcode' : Utf8.decode ((numbering start entries).apply source) = .ok code')
    (hall : ∀ v ∈ n.sortedInvocations source, ∃ o,
      (v.grown (numbering start entries) ((numbering start entries).apply source)).read query code'
        ((numbering start entries).apply source) = .ok o ∧
      Option.Rel (Entry.Completes start (pending entries)) o (g v)) (ns : List Notice) :
    ∃ entries', ((entriesInTree query ((numbering start entries).apply source) n').run.run ns).1 =
        .ok entries' ∧ List.Forall₂ (Entry.Completes start (pending entries)) entries' entries := by
  let g' (v : Invocation) := (v.grown (numbering start entries)
    ((numbering start entries).apply source)).entryOf query code' ((numbering start entries).apply source)
  have hread : ∀ v ∈ n.sortedInvocations source, (v.grown (numbering start entries)
      ((numbering start entries).apply source)).read query code' ((numbering start entries).apply source) =
        .ok (g' v) ∧ Option.Rel (Entry.Completes start (pending entries)) (g' v) (g v) := by
    intro v hv
    obtain ⟨o, ho, hrel⟩ := hall v hv
    have heq : g' v = o := by
      change Option.join (Except.toOption _) = o
      rw [ho]
      rfl
    exact ⟨heq ▸ ho, heq.symm ▸ hrel⟩
  refine ⟨(n.sortedInvocations source).filterMap g', ?_, ?_⟩
  · rw [fst_entriesInTree_edited hcode' h.fits hs hm hr, mapM_of_forall fun v hv => (hread v hv).1]
    exact congrArg Except.ok List.filterMap_map
  · conv => arg 3; rw [h.found]
    refine List.rel_filterMap (R := fun v w => v = w ∧ v ∈ n.sortedInvocations source) ?_ ?_
    · rintro v w ⟨rfl, hv⟩
      exact (hread v hv).2
    · exact List.forall₂_same.mpr fun v hv => ⟨rfl, hv⟩

end Offered

theorem Entry.Completes.reference_of_usable {start : Nat} {targets : List Entry} {e' e : Entry}
    (h : Entry.Completes start targets e' e) (husable : e.hasReference = false → e.isUsable = true) :
    e'.reference = if e.hasReference then e.reference else some (Insertion.idAt start targets e.place : Int) := by
  rw [h.reference]
  cases href : e.hasReference with
  | true => rfl
  | false => rw [husable href]; rfl

namespace Insertion

variable {entries entries' : List Entry} {start : Nat}
  (h : List.Forall₂ (Entry.Completes start (pending entries)) entries' entries)
include h

theorem macroNames_completed : entries'.map Entry.macroName = entries.map Entry.macroName := by
  rw [← List.forall₂_eq_eq_eq, List.forall₂_map_left_iff, List.forall₂_map_right_iff]
  exact h.imp fun _ _ hc => hc.macroName

theorem sites_completed : entries'.map Entry.site = entries.map fun e => e.site.settled := by
  rw [← List.forall₂_eq_eq_eq, List.forall₂_map_left_iff, List.forall₂_map_right_iff]
  exact h.imp fun _ _ hc => hc.site

theorem references_completed (husable : ∀ e ∈ entries, e.hasReference = false → e.isUsable = true)
    (hdistinct : ((pending entries).map Entry.place).Nodup) :
    entries'.map Entry.reference = assigned start entries := by
  rw [assigned_eq husable hdistinct, ← List.forall₂_eq_eq_eq, List.forall₂_map_left_iff,
    List.forall₂_map_right_iff]
  refine List.forall₂_iff_get.mpr ⟨h.length_eq, fun i hi hi' => ?_⟩
  exact (h.get hi hi').reference_of_usable (husable _ (List.getElem_mem hi'))

/-- No entry lacks a reference afterwards. -/
theorem hasReference_completed (husable : ∀ e ∈ entries, e.hasReference = false → e.isUsable = true) :
    ∀ e ∈ entries', e.hasReference = true := by
  intro e he
  obtain ⟨i, hi, rfl⟩ := List.mem_iff_getElem.mp he
  have hi' : i < entries.length := h.length_eq ▸ hi
  have href := (h.get hi hi').reference_of_usable (husable _ (List.getElem_mem hi'))
  simp only [List.get_eq_getElem] at href
  rw [Entry.hasReference, href]
  split
  · next hold => exact hold
  · rfl

end Insertion

end LogRef
