import LogRef.Proofs.Source.Edits
import LogRef.Run.Insertion

/-!
# Splicing ids into a file

The contents of a file with the next ids at their places are its contents, edited. The ids are handed out one
after the other, in the order of the places.
-/
namespace LogRef

/-- The byte that a new mark goes before. -/
def Entry.place (e : Entry) : Nat := e.position.offset.toNat

namespace Insertion

/-- The contents from `cursor` on with the next ids at the places of `targets`, and the counter after them. -/
def splice (contents : Bytes) :
    (cursor : Nat) → (targets : List Entry) → Counter → Except Overflow Bytes × Counter
  | cursor, [], c => (.ok (contents.drop cursor), c)
  | cursor, e :: rest, c =>
    match c.fetch with
    | .error o => (.error o, c)
    | .ok (id, c) =>
      let place := clampOffset contents.length e.position.offset
      let piece := (contents.take place).drop cursor ++ Bytes.ofString (e.markFor id)
      match splice contents place rest c with
      | (.ok more, c) => (.ok (piece ++ more), c)
      | (.error o, c) => (.error o, c)

/-- The texts for consecutive ids, with their places. -/
def marksFrom : (id : Nat) → List Entry → List (Nat × List Char)
  | _, [] => []
  | id, e :: rest => (e.place, (e.markFor id).toList) :: marksFrom (id + 1) rest

/-- The text for a place. -/
def textAt (marks : List (Nat × List Char)) (p : Nat) : List Char := (marks.lookup p).getD []

/-- The entries that a pass gives ids to. -/
def pending (entries : List Entry) : List Entry :=
  (entries.filter fun e => !e.hasReference).filter Entry.isUsable

variable {contents data : Bytes} {c c' : Counter} {targets : List Entry}

theorem splice_cons (contents : Bytes) (cursor : Nat) (e : Entry) (targets : List Entry) (hle : c.next ≤ greatestId) :
    splice contents cursor (e :: targets) c =
      (fun r => (r.1.map fun more => (contents.take (clampOffset contents.length e.position.offset)).drop cursor ++
          Bytes.ofString (e.markFor c.next) ++ more, r.2))
        (splice contents (clampOffset contents.length e.position.offset) targets ⟨c.next + 1⟩) := by
  have hfetch : c.fetch = .ok (c.next, ⟨c.next + 1⟩) := if_neg (Int.not_lt.mpr hle)
  simp only [splice, hfetch]
  rcases splice contents (clampOffset contents.length e.position.offset) targets ⟨c.next + 1⟩ with ⟨_ | _, _⟩ <;> rfl

theorem splice_cons_ok {cursor : Nat} {e : Entry}
    (h : splice contents cursor (e :: targets) c = (.ok data, c')) :
    c.next ≤ greatestId ∧ ∃ more, splice contents (clampOffset contents.length e.position.offset) targets
        ⟨c.next + 1⟩ = (.ok more, c') ∧
      data = (contents.take (clampOffset contents.length e.position.offset)).drop cursor ++
        Bytes.ofString (e.markFor c.next) ++ more := by
  simp only [splice, Counter.fetch] at h
  split at h
  · next hf =>
    split at hf <;> cases hf
    cases h
  · next id c1 hf =>
    split at hf
    · cases hf
    · next hle =>
      obtain ⟨rfl, rfl⟩ := Prod.mk.inj (Except.ok.inj hf)
      split at h
      · next more c2 hs =>
        obtain ⟨hd, rfl⟩ := Prod.mk.inj h
        exact ⟨Int.not_lt.mp hle, more, hs, (Except.ok.inj hd).symm⟩
      · next hs => cases h

/-- Every place takes one id. -/
theorem splice_counter {cursor : Nat} (h : splice contents cursor targets c = (.ok data, c')) :
    c'.next = c.next + targets.length ∧ (targets ≠ [] → c'.next ≤ greatestId + 1) := by
  induction targets generalizing cursor c data with
  | nil =>
    obtain ⟨_, rfl⟩ := Prod.mk.inj h
    exact ⟨by simp, fun h => absurd rfl h⟩
  | cons e targets ih =>
    obtain ⟨hle, more, hmore, _⟩ := splice_cons_ok h
    obtain ⟨hnext, hbound⟩ := ih hmore
    simp only [List.length_cons] at hnext ⊢
    refine ⟨by omega, fun _ => ?_⟩
    cases targets with
    | nil =>
      simp only [List.length_nil] at hnext
      omega
    | cons f targets => exact hbound (List.cons_ne_nil f targets)

/-- As many places as there are ids left get one each. -/
theorem splice_fits (contents : Bytes) (cursor : Nat) (h : c.next + targets.length ≤ greatestId + 1) :
    ∃ data, splice contents cursor targets c = (.ok data, ⟨c.next + targets.length⟩) := by
  induction targets generalizing cursor c with
  | nil => exact ⟨contents.drop cursor, by simp [splice]⟩
  | cons e targets ih =>
    rw [List.length_cons] at h
    have hle : ¬ (greatestId : Int) < c.next := by omega
    obtain ⟨more, hmore⟩ := @ih ⟨c.next + 1⟩ (clampOffset contents.length e.position.offset) (by dsimp only; omega)
    have hnext : c.next + 1 + targets.length = c.next + (targets.length + 1 : Nat) := by omega
    simp only [splice, Counter.fetch, hle, if_false, hmore, List.length_cons, hnext]
    exact ⟨_, rfl⟩

/-- More places than that use up the ids there are. -/
theorem splice_runs_out (contents : Bytes) (cursor : Nat) (hsome : targets ≠ [])
    (h : greatestId + 1 < c.next + targets.length) :
    ∃ o, splice contents cursor targets c = (.error o, ⟨max c.next (greatestId + 1)⟩) := by
  induction targets generalizing cursor c with
  | nil => exact absurd rfl hsome
  | cons e targets ih =>
    by_cases hle : (greatestId : Int) < c.next
    · refine ⟨⟨c.next⟩, ?_⟩
      have hmax : max c.next (greatestId + 1) = c.next := by omega
      simp only [splice, Counter.fetch, hle, if_true, hmax]
    · rw [List.length_cons] at h
      have hmore : targets ≠ [] := by
        rintro rfl
        simp only [List.length_nil] at h
        omega
      obtain ⟨o, ho⟩ := @ih ⟨c.next + 1⟩ (clampOffset contents.length e.position.offset) hmore (by dsimp only; omega)
      have hmax : max (c.next + 1) (greatestId + 1) = max c.next ((greatestId : Int) + 1) := by omega
      refine ⟨o, ?_⟩
      simp only [splice, Counter.fetch, hle, if_false, ho, hmax]

/-- Ids run out only where there are more places, and then all are used up. -/
theorem splice_overflows (hsome : targets ≠ []) {o : Overflow} (h : splice contents 0 targets c = (.error o, c')) :
    greatestId + 1 < c.next + targets.length ∧ c'.next = max c.next (greatestId + 1) := by
  by_cases hfits : c.next + targets.length ≤ greatestId + 1
  · obtain ⟨data, hdata⟩ := splice_fits contents 0 hfits
    cases hdata.symm.trans h
  · obtain ⟨o, ho⟩ := splice_runs_out contents 0 hsome (Int.not_le.mp hfits)
    cases ho.symm.trans h
    exact ⟨Int.not_le.mp hfits, rfl⟩

theorem pairwise_of_isAscending {offsets : List Int} (h : isAscending offsets = true) :
    offsets.Pairwise (· ≤ ·) := by
  induction offsets with
  | nil => exact List.Pairwise.nil
  | cons a rest ih =>
    cases rest with
    | nil => exact List.pairwise_singleton _ _
    | cons b rest =>
      rw [isAscending, Bool.and_eq_true, decide_eq_true_eq] at h
      have hrest := ih h.2
      refine List.pairwise_cons.mpr ⟨fun c hc => ?_, hrest⟩
      rcases List.mem_cons.mp hc with rfl | hc
      · exact h.1
      · exact Int.le_trans h.1 ((List.pairwise_cons.mp hrest).1 c hc)

theorem textAt_cons_self (p : Nat) (text : List Char) (marks : List (Nat × List Char)) :
    textAt ((p, text) :: marks) p = text := by
  rw [textAt, List.lookup_cons_self]
  rfl

theorem textAt_cons_ne {p q : Nat} (h : q ≠ p) (text : List Char) (marks : List (Nat × List Char)) :
    textAt ((p, text) :: marks) q = textAt marks q := by
  rw [textAt, textAt, List.lookup_cons, beq_eq_false_iff_ne.mpr h]

theorem textAt_marksFrom_of_not_mem {id p : Nat} (h : ∀ e ∈ targets, e.place ≠ p) :
    textAt (marksFrom id targets) p = [] := by
  induction targets generalizing id with
  | nil => rfl
  | cons e targets ih =>
    rw [marksFrom, textAt_cons_ne (Ne.symm (h e List.mem_cons_self)),
      ih fun f hf => h f (List.mem_cons_of_mem e hf)]

theorem drop_split (contents : Bytes) {cursor place : Nat} (h : cursor ≤ place) (hin : place ≤ contents.length) :
    contents.drop cursor = (contents.take place).drop cursor ++ contents.drop place := by
  conv => lhs; rw [← List.take_append_drop place contents]
  rw [List.drop_append_of_le_length (by rw [List.length_take]; omega)]

/-- Splicing is editing, when the places go up. -/
theorem splice_eq {id cursor : Nat} (h : splice contents cursor targets ⟨id⟩ = (.ok data, c'))
    (h0 : ∀ e ∈ targets, 0 ≤ e.position.offset) (hup : (targets.map Entry.place).Pairwise (· < ·))
    (hfrom : ∀ e ∈ targets, cursor ≤ e.place) (hin : ∀ e ∈ targets, e.place < contents.length) :
    data = weave (fun p => Utf8.encode (textAt (marksFrom id targets) p)) cursor
      (contents.drop cursor) := by
  induction targets generalizing cursor id data with
  | nil =>
    obtain ⟨hd, _⟩ := Prod.mk.inj h
    have hnone := weave_eq_self (fun p => Utf8.encode (textAt (marksFrom id []) p)) (i := cursor)
      (s := contents.drop cursor) fun _ _ _ => rfl
    rw [hnone]
    exact (Except.ok.inj hd).symm
  | cons e targets ih =>
    obtain ⟨_, more, hmore, hdata⟩ := splice_cons_ok h
    have hplace : clampOffset contents.length e.position.offset = e.place := by
      have := h0 e List.mem_cons_self
      rw [clampOffset, if_neg (by omega), Entry.place]
    rw [hplace] at hmore hdata
    rw [List.map_cons, List.pairwise_cons] at hup
    have hafter : ∀ f ∈ targets, e.place < f.place := fun f hf => hup.1 _ (List.mem_map_of_mem hf)
    have hmore' := @ih more (id + 1) e.place hmore (fun f hf => h0 f (List.mem_cons_of_mem e hf)) hup.2
      (fun f hf => Nat.le_of_lt (hafter f hf)) fun f hf => hin f (List.mem_cons_of_mem e hf)
    have hle := hfrom e List.mem_cons_self
    have hlt := hin e List.mem_cons_self
    -- nothing before the place, then the text for it, and behind it what the rest puts in
    have hsplit := drop_split contents hle (Nat.le_of_lt hlt)
    have hlen : cursor + ((contents.take e.place).drop cursor).length = e.place := by
      rw [List.length_drop, List.length_take]
      omega
    have hfront : weave (fun p => Utf8.encode (textAt (marksFrom id (e :: targets)) p)) cursor
        ((contents.take e.place).drop cursor) = (contents.take e.place).drop cursor := by
      refine weave_eq_self _ fun j hj hjlt => ?_
      rw [textAt_marksFrom_of_not_mem fun f hf => ?_]
      · rfl
      · rcases List.mem_cons.mp hf with rfl | hf
        · omega
        · have := hafter f hf
          omega
    have hnone : textAt (marksFrom (id + 1) targets) e.place = [] :=
      textAt_marksFrom_of_not_mem fun f hf => by have := hafter f hf; omega
    rw [hdata, hmore', hsplit, weave_append, hlen, hfront, List.drop_eq_getElem_cons hlt, weave, weave,
      marksFrom, textAt_cons_self, hnone]
    have hrest : weave (fun p => Utf8.encode (textAt (marksFrom (id + 1) targets) p)) (e.place + 1)
          (contents.drop (e.place + 1)) =
        weave (fun p => Utf8.encode (textAt ((e.place, (e.markFor id).toList) ::
          marksFrom (id + 1) targets) p)) (e.place + 1) (contents.drop (e.place + 1)) := by
      refine weave_congr _ (fun j hj => ?_) _
      rw [textAt_cons_ne (by omega)]
    rw [hrest, List.append_assoc]
    rfl

end Insertion

end LogRef
