import LogRef.Proofs.Reference.Boundaries
import LogRef.Proofs.Run.ExactSplice
import LogRef.Proofs.Run.Notices

/-!
# Annotated files stay text

The places of all entries are between characters, so a file that gets its marks is UTF-8 again: it reads as the text it
was before with the marks put in, and no later search passes it over.
-/
namespace LogRef

/-- Pieces of text with a mark behind each but the last. -/
def annotatedText : (pieces marks : List (List Char)) → List Char
  | piece :: pieces, mark :: marks => piece ++ mark ++ annotatedText pieces marks
  | pieces, _ => pieces.flatten

theorem flatten_map_encode (pieces : List (List Char)) :
    (pieces.map Utf8.encode).flatten = Utf8.encode pieces.flatten := by
  induction pieces with
  | nil => rfl
  | cons piece pieces ih => rw [List.map_cons, List.flatten_cons, ih, List.flatten_cons, Utf8.encode_append]

theorem interleave_encode (pieces marks : List (List Char)) :
    interleave (pieces.map Utf8.encode) (marks.map Utf8.encode) = Utf8.encode (annotatedText pieces marks) := by
  induction pieces generalizing marks with
  | nil => cases marks <;> rfl
  | cons piece pieces ih =>
    cases marks with
    | nil => exact flatten_map_encode (piece :: pieces)
    | cons mark marks =>
      rw [List.map_cons, List.map_cons, interleave, ih, annotatedText, Utf8.encode_append, Utf8.encode_append]

/-- A boundary behind some characters is behind a first part of the others. -/
theorem IsBoundary.split {passed chars : List Char} {size : Nat}
    (h : IsBoundary (passed ++ chars) (((Utf8.encode passed).length + size : Nat) : Int)) :
    ∃ piece rest, chars = piece ++ rest ∧ (Utf8.encode piece).length = size := by
  obtain ⟨i, _, hi⟩ := h
  refine ⟨chars.take (i - passed.length), chars.drop (i - passed.length), (List.take_append_drop _ _).symm, ?_⟩
  rw [byteOffset, List.take_append, Utf8.encode_append, List.length_append] at hi
  rcases Nat.le_total passed.length i with hle | hle
  · rw [List.take_of_length_le hle] at hi
    omega
  · have hpassed := byteOffset_mono passed hle
    rw [byteOffset, byteOffset, List.take_length] at hpassed
    rw [Nat.sub_eq_zero_of_le hle, List.take_zero] at hi ⊢
    simp only [Utf8.encode, List.flatMap_nil, List.length_nil] at hi hpassed ⊢
    omega

/-- Cuts between characters leave pieces of text. -/
theorem Cuts.pieces {passed chars : List Char} {start : Nat} {bytes : Bytes} {offsets : List Nat}
    {segments : List Bytes} (h : Cuts start bytes offsets segments) (hstart : start = (Utf8.encode passed).length)
    (hbytes : bytes = Utf8.encode chars) (hoffsets : ∀ p ∈ offsets, IsBoundary (passed ++ chars) (p : Int)) :
    ∃ pieces : List (List Char), segments = pieces.map Utf8.encode ∧ pieces.flatten = chars := by
  induction h generalizing passed chars with
  | last start segment => exact ⟨[chars], by rw [hbytes]; rfl, List.flatten_singleton⟩
  | @cut start segment rest offsets segments _ ih =>
    subst hstart
    obtain ⟨piece, others, rfl, hsize⟩ := (hoffsets _ List.mem_cons_self).split
    rw [Utf8.encode_append] at hbytes
    obtain ⟨rfl, rfl⟩ := List.append_inj hbytes hsize.symm
    have hlater : ∀ p ∈ offsets, IsBoundary (passed ++ piece ++ others) (p : Int) := by
      intro p hp
      rw [List.append_assoc]
      exact hoffsets p (List.mem_cons_of_mem _ hp)
    have hpassed : (Utf8.encode passed).length + (Utf8.encode piece).length =
        (Utf8.encode (passed ++ piece)).length := by
      rw [Utf8.encode_append, List.length_append]
    obtain ⟨pieces, rfl, rfl⟩ := ih hpassed rfl hlater
    exact ⟨piece :: pieces, rfl, rfl⟩

/-- What is text is not reported as anything else. -/
theorem entriesInTree_readable {data : Bytes} {text : List Char} (h : Utf8.decode data = .ok text) (query : Query)
    (tree : Node) : (entriesInTree query data tree).Notes fun n => ∀ e, n ≠ .undecodableSource e := by
  unfold entriesInTree
  rw [h]
  simp only
  split
  · exact .throw _
  · exact callEntries_notes (fun _ _ _ => nofun) _ _ _

namespace Insertion

variable {source data : Bytes} {code : List Char} {targets : List Entry} {first : Int}

/-- The texts of the marks for consecutive ids. -/
def markTexts (first : Int) (targets : List Entry) : List (List Char) :=
  targets.mapIdx fun i e => (e.markFor (first + i)).toList

/-- Contents are text: the text of a source, cut at the places of the targets, with the marks for consecutive ids put in
at the cuts. -/
structure TextKept (source : Bytes) (code : List Char) (targets : List Entry) (first : Int) (data : Bytes)
    (pieces : List (List Char)) : Prop where
  all : pieces.flatten = code
  cuts : Cuts 0 source (targets.map Entry.place) (pieces.map Utf8.encode)
  reads : Utf8.decode data = .ok (annotatedText pieces (markTexts first targets))
  /-- No search says that the contents cannot be decoded. -/
  searched : ∀ query tree ns e, .undecodableSource e ∈ ((entriesInTree query data tree).run.run ns).2 →
    .undecodableSource e ∈ ns

/-- Marks between characters make text out of text. -/
theorem Annotated.textKept (h : Annotated source targets first data) (hcode : Utf8.decode source = .ok code)
    (htargets : ∀ e ∈ targets, IsBoundary code e.position.offset) :
    ∃ pieces, TextKept source code targets first data pieces := by
  obtain ⟨segments, hcuts, _, hdata⟩ := h
  have hplaces : ∀ p ∈ targets.map Entry.place, IsBoundary ([] ++ code) (p : Int) := by
    intro p hp
    obtain ⟨e, he, rfl⟩ := List.mem_map.mp hp
    have h0 := ((htargets e he).bounds hcode).1
    rw [Entry.place, Int.toNat_of_nonneg h0]
    exact htargets e he
  obtain ⟨pieces, rfl, hall⟩ := hcuts.pieces rfl (Utf8.encode_of_decode hcode).symm hplaces
  have hmarks : marksOf first targets = (markTexts first targets).map Utf8.encode := by
    rw [marksOf, markTexts, List.mapIdx_eq_zipIdx_map, List.mapIdx_eq_zipIdx_map, List.map_map]
    rfl
  have hreads : Utf8.decode data = .ok (annotatedText pieces (markTexts first targets)) := by
    rw [hdata, hmarks, interleave_encode, Utf8.decode_encode]
  refine ⟨pieces, hall, hcuts, hreads, ?_⟩
  intro query tree ns e he
  obtain ⟨added, hadded, hnone⟩ := entriesInTree_readable hreads query tree ns
  rw [hadded, List.mem_append] at he
  exact he.resolve_right fun hmem => hnone _ hmem e rfl

end Insertion

/-- Every entry is between characters. A visit leaves the file alone, or the file is text again, as it was but for the
marks. -/
theorem annotating_keeps_encoding {source : Bytes} {code : List Char} {tree : Node}
    (hcode : Utf8.decode source = .ok code) (htree : tree.All (Node.Seated source code)) (query : Query)
    (ns : List Notice) :
    (∃ e, ((entriesInTree query source tree).run.run ns).1 = .error (.tooManyDigits e)) ∨
      ∃ entries, ((entriesInTree query source tree).run.run ns).1 = .ok entries ∧
        (∀ e ∈ entries, IsBoundary code e.position.offset) ∧
        ∀ device counter path s, s.disk.WellFormed →
          let after := (Insertion.visit device counter path source entries).run s
          Insertion.Untouched device path s after.2.disk ∨ ∃ c data pieces, counter = some c ∧
            s.disk.Swapped path (Staged.scratchPath s.disk s.scratchTag path) data after.2.disk ∧
            Insertion.TextKept source code (Insertion.pending entries) c.next data pieces := by
  rcases (htree.inRange hcode false).found_or_overlong hcode query ns with hfails | ⟨entries, hfound⟩
  · exact .inl hfails
  have hentries : ∀ e ∈ entries, IsBoundary code e.position.offset := fun e he => htree.entries hcode hfound he
  refine .inr ⟨entries, hfound, hentries, ?_⟩
  intro device counter path s hd
  have hoffsets : ∀ e ∈ entries, 0 ≤ e.position.offset := fun e he => ((hentries e he).bounds hcode).1
  rcases Insertion.visit_cases device counter path source entries s hd hoffsets with
    ⟨_, _, hsame⟩ | ⟨_, _, _, hsame⟩ | ⟨_, _, _, c, data, hc, _, _, hannotated, hswapped⟩
  · exact .inl hsame
  · exact .inl (.of_same hsame)
  · obtain ⟨pieces, hkept⟩ := hannotated.textKept hcode fun e he =>
      hentries e (List.mem_of_mem_filter (List.mem_of_mem_filter he))
    exact .inr ⟨c, data, pieces, hc, hswapped, hkept⟩

/-- Calls whose targets and arguments are not identifiers: each byte of an arrow is a token. -/
def arrows (first second : String) : String := "m!(target:→" ++ first ++ ",;\"ü\");m!(target:→," ++ second ++ "→;\"ü\")"

def arrowsTree : Node :=
  .mk .other 0 44 true false false
    [.mk .macroInvocation 0 20 true false false
      [.mk .identifier 0 1 true false true [],
        .mk .tokenTree 2 20 true false false
          [.mk .identifier 3 9 true false false [], .mk .stringLiteral 15 19 true false false []]],
      .mk .macroInvocation 21 44 true false false
        [.mk .identifier 21 22 true false true [],
          .mk .tokenTree 23 44 true false false
            [.mk .identifier 24 30 true false false [], .mk .stringLiteral 39 43 true false false []]]]

/-- New arguments for the calls of `m`. -/
def arrowsQuery : Query := ⟨["m"], true, CommentPattern.slashes, fun _ => arrowsTree⟩

def arrowsEntries : List Entry :=
  [⟨⟨13, 1, 14⟩, none, "m", .newArgument, some "ref = ", some "; "⟩,
    ⟨⟨35, 1, 36⟩, none, "m", .newArgument, some "ref = ", some ", "⟩]

/-- A new argument right behind the last byte of an arrow, and one right before the first byte of another. -/
theorem arrows_keep_encoding :
    let source := Bytes.ofString (arrows "" "")
    let path : Path := ⟨.none, ["a.rs"]⟩
    let s : Session := ⟨⟨⟨[(["a.rs"], .file source 0o644)]⟩, [], []⟩, [], .never, "0"⟩
    let after := (Insertion.visit .sound (some ⟨1⟩) path source arrowsEntries).run s
    ((entriesInTree arrowsQuery source arrowsTree).run.run []).1 = .ok arrowsEntries ∧
      (∀ e ∈ arrowsEntries, IsBoundary (arrows "" "").toList e.position.offset) ∧
      (after.2.disk.read path).toOption = some (Bytes.ofString (arrows "ref = 1; " "ref = 2, ")) ∧
      ∃ data pieces, s.disk.Swapped path (Staged.scratchPath s.disk s.scratchTag path) data after.2.disk ∧
        Insertion.TextKept source (arrows "" "").toList arrowsEntries 1 data pieces := by
  intro source path s after
  have hcode : Utf8.decode source = .ok (arrows "" "").toList := by rfl
  have htree : arrowsTree.All (Node.Seated source (arrows "" "").toList) := by decide +kernel
  have hfits : arrowsTree.Fits source := by decide +kernel
  have hsorted : (arrowsTree.invocations source).Pairwise fun a b => a.nameStart ≤ b.nameStart := by decide +kernel
  have hreads : ((arrowsTree.invocations source).mapM (Invocation.read arrowsQuery
      (arrows "" "").toList source)).toOption.map (·.filterMap id) = some arrowsEntries := by decide +kernel
  have hfound := found_of_reads hcode hfits hsorted hreads []
  have hd : s.disk.WellFormed := ⟨by decide, FileTree.isDirectory_top _⟩
  have hread : (after.2.disk.read path).toOption = some (Bytes.ofString (arrows "ref = 1; " "ref = 2, ")) := by
    decide +kernel
  have hold : (s.disk.read path).toOption ≠ some (Bytes.ofString (arrows "ref = 1; " "ref = 2, ")) := by decide +kernel
  rcases annotating_keeps_encoding hcode htree arrowsQuery [] with
    ⟨_, hfails⟩ | ⟨entries, hagain, hboundaries, hvisit⟩
  · cases hfails.symm.trans hfound
  · obtain rfl := Except.ok.inj (hagain.symm.trans hfound)
    refine ⟨hfound, hboundaries, hread, ?_⟩
    rcases hvisit .sound (some ⟨1⟩) path s hd with hsame | ⟨c, data, pieces, hc, hswapped, hkept⟩
    · exact absurd (hsame.tidy Device.tidy_sound ▸ hread) hold
    · obtain rfl := Option.some.inj hc
      exact ⟨data, pieces, hswapped, hkept⟩

end LogRef
