import LogRef.Proofs.Reference.Completed
import LogRef.Rust.Tree

/-!
# References in messages, there and back

Where references live in messages, the entries of an annotated source are those of the source, each with the
reference it had or the id it was given. A second visit has nothing to do.
-/
namespace LogRef

variable {query : Query} {source : Bytes} {code : List Char} {n : Node} {v : Invocation}
  {entries : List Entry} {start : Nat}

theorem Query.reading_of_messages (h : query.inArguments = false) (code : List Char) (call : Call) :
    query.reading code call = .nothing ∨ query.reading code call = .message := by
  unfold Query.reading
  split
  · split
    · exact Or.inl rfl
    · rw [h]
      exact Or.inr rfl
  · exact Or.inl rfl

/-- In messages there is nothing that cannot be read. -/
theorem read_of_messages (h : query.inArguments = false) (v : Invocation) :
    v.read query code source = .ok (v.entryOf query code source) := by
  rcases Query.reading_of_messages h code (v.call source (byteLineStarts source)) with hr | hr
  · rw [Invocation.entryOf_nothing hr, Invocation.read, hr, Reading.entry]
  · rw [Invocation.entryOf_message hr, Invocation.read, hr, Reading.entry]

theorem exists_entries_of_messages (h : query.inArguments = false)
    (hcode : Utf8.decode source = .ok code) (hf : n.Fits source) (ns : List Notice) :
    ((entriesInTree query source n).run.run ns).1 =
      .ok ((n.sortedInvocations source).filterMap (Invocation.entryOf query code source)) := by
  rw [fst_entriesInTree hcode hf, mapM_of_forall fun v _ => read_of_messages h v]
  exact congrArg Except.ok List.filterMap_map

theorem offers_of_messages (h : query.inArguments = false) {entry : Entry}
    (hg : v.entryOf query code source = some entry) :
    v.Offers entry ∧ entry.site = .message ∧ entry.before = none ∧ entry.after = none := by
  rcases Query.reading_of_messages h code (v.call source (byteLineStarts source)) with hr | hr
  · rw [Invocation.entryOf_nothing hr] at hg
    cases hg
  · exact Invocation.offers_of_message hr hg

theorem offered_of_messages (h : query.inArguments = false) (hf : n.Fits source) :
    Offered source n (Invocation.entryOf query code source)
      ((n.sortedInvocations source).filterMap (Invocation.entryOf query code source)) :=
  ⟨hf, rfl, fun _ _ _ hg _ => (offers_of_messages h hg).1⟩

theorem grownTokens_of_none {e : Edits} {edited : Bytes} (h : ∀ p, e.tokens p = []) (start : Int)
    (tokens : List Token) : grownTokens e edited start tokens = tokens.map (Token.moved e edited) := by
  have hnone : e.argument true start tokens = [] := by
    rw [Edits.argument, if_pos rfl]
    cases argumentPlace start tokens with
    | none => rfl
    | some p => exact h _
  rw [grownTokens, hnone, List.nil_append, ← List.map_append, List.take_append_drop]

/-- With the texts for all ids put in, every message is read with its reference. -/
theorem completed_of_messages (hmode : query.inArguments = false)
    (hcomments : query.comments = CommentPattern.slashes) (hcode : Utf8.decode source = .ok code)
    (h : Offered source n (Invocation.entryOf query code source) entries)
    (hids : ∀ e ∈ Insertion.pending entries,
      Insertion.idAt start (Insertion.pending entries) e.place ≤ greatestId) {n' : Node}
    (hm : n.Moves (numbering start entries) false n') (ns : List Notice) :
    ∃ entries', ((entriesInTree query ((numbering start entries).apply source) n').run.run ns).1 =
        .ok entries' ∧
      List.Forall₂ (Entry.Completes start (Insertion.pending entries)) entries' entries := by
  have hpending : ∀ e ∈ Insertion.pending entries, e.site = .message ∧ e.Sits code := by
    intro e he
    obtain ⟨v, hv, hg, hoffers⟩ := h.exists_of_pending he
    obtain ⟨_, hsite, hb, ha⟩ := offers_of_messages hmode hg
    exact ⟨hsite, hoffers.sits_message (h.fits.laid hv) hsite hcode hb ha⟩
  have hsits := fun e he => (hpending e he).2
  have hnone (p : Nat) : (numbering start entries).tokens p = [] :=
    numbering_tokens_of_message fun e he _ => by rw [(hpending e he).1]; decide
  have hs : (numbering start entries).Suits source n := h.suits fun p hp => absurd (hnone p) hp
  refine h.entries_completed hs hm (Node.readsArguments_of_none hnone n')
    (Offered.decode_apply hcode hsits) (fun v hv => ?_) ns
  have hreading := reading_grown (e := numbering start entries) hcomments hcode (h.oneLine hsits)
    (fun _ => h.fitsLine hcode hsits) (h.fits.laid hv)
  unfold Invocation.read
  rw [hreading]
  rcases Query.reading_of_messages hmode code (v.call source (byteLineStarts source)) with hr | hr
  · refine ⟨none, by rw [hr]; rfl, ?_⟩
    rw [Invocation.entryOf_nothing hr]
    exact .none
  · have hsteady : ∀ t ∈ v.tokens, t.Steady (numbering start entries) _ :=
      fun t ht => hs.steady h.fits (Node.mem_sortedInvocations.mp hv) ht
    refine ⟨_, by rw [hr]; rfl, h.completes_message hs hids hv (Invocation.entryOf_message hr) ?_⟩
    rw [Invocation.grown, grownTokens_of_none hnone, messageToken_moved hsteady]

/-- Let references live in messages, and let a parser move the boundaries of its tree past the texts put in.
The entries of a source can always be found. Once a visit has given ids to them without failing, the entries
of the new contents have the same names in the same order, each with its old reference or the id assigned to
it, and a visit of those changes nothing. -/
theorem messages_round_trip (hmode : query.inArguments = false)
    (hcomments : query.comments = CommentPattern.slashes) (parse : Bytes → Node)
    (hcode : Utf8.decode source = .ok code) (hfits : (parse source).Fits source) :
    ∃ entries notices, (entriesInTree query source (parse source)).run.run [] = (.ok entries, notices) ∧
      ∀ (device : Device) (start : Nat) (path : Path) (s s' : Session) (result : Insertion)
        (counter : Option Counter),
        s.disk.read path = .ok source →
        (Insertion.visit device (some ⟨start⟩) path source entries).run s = ((result, counter), s') →
        result.hasFailed = false →
        (parse source).Moves (numbering start entries) false
          (parse ((numbering start entries).apply source)) →
        ∃ edited, edited = (numbering start entries).apply source ∧
          s.disk.Rewritten path source edited s'.disk ∧
          ∃ entries' notices', (entriesInTree query edited (parse edited)).run.run [] =
              (.ok entries', notices') ∧
            entries'.map Entry.macroName = entries.map Entry.macroName ∧
            entries'.map Entry.reference = Insertion.assigned start entries ∧
            ∀ (device : Device) (again : Option Counter) (later : Session),
              (Insertion.visit device again path edited entries').run later = ((⟨false, 0⟩, again), later) := by
  have h : Offered source (parse source) (Invocation.entryOf query code source) _ :=
    offered_of_messages hmode hfits
  refine ⟨_, _, Prod.ext (exists_entries_of_messages hmode hcode hfits []) rfl, ?_⟩
  intro device start path s s' result counter hread hvisit hok hmoves
  obtain ⟨husable, hids, hrewritten⟩ := h.rewritten_of_visit hread hvisit hok
  obtain ⟨entries', hfound, hdone⟩ := completed_of_messages hmode hcomments hcode h hids hmoves []
  refine ⟨_, rfl, hrewritten, entries', _, Prod.ext hfound rfl, Insertion.macroNames_completed hdone,
    Insertion.references_completed hdone husable h.distinct, fun device again later => ?_⟩
  exact Insertion.visit_of_complete (Insertion.hasReference_completed hdone husable) again

/-- A source with two calls, a text at the head of the first message, and its tree if that has as many
bytes. -/
def twoMessages (mark : String) : Bytes := Bytes.ofString ("m!(\"" ++ mark ++ "a\");m!(\"[ref: 7] b\")")

def twoMessagesTree (bytes : Int) : Node :=
  .mk .other 0 (24 + bytes) true false false
    [.mk .macroInvocation 0 (7 + bytes) true false false
      [.mk .identifier 0 1 true false true [],
        .mk .tokenTree 2 (7 + bytes) true false false
          [.mk .stringLiteral 3 (6 + bytes) true false false []]],
      .mk .macroInvocation (8 + bytes) (24 + bytes) true false false
      [.mk .identifier (8 + bytes) (9 + bytes) true false true [],
        .mk .tokenTree (10 + bytes) (24 + bytes) true false false
          [.mk .stringLiteral (11 + bytes) (23 + bytes) true false false []]]]

theorem parse_twoMessages : Rust.parse (twoMessages "") = twoMessagesTree 0 ∧
    Rust.parse (twoMessages "[ref: 8] ") = twoMessagesTree 9 := by
  decide +kernel

/-- Calls of `m` are looked for, with references in messages. -/
def messageQuery : Query := ⟨["m"], false, CommentPattern.slashes, Rust.parse⟩

def twoMessagesEntries : List Entry :=
  [⟨⟨4, 1, 5⟩, none, "m", .message, none, none⟩, ⟨⟨12, 1, 13⟩, some 7, "m", .message, none, none⟩]

/-- The first of two calls gets the id 8, the second keeps 7, and nothing is left to do. -/
theorem messages_round_trip_two :
    let path : Path := ⟨.none, ["a.rs"]⟩
    let s : Session := ⟨⟨⟨[(["a.rs"], .file (twoMessages "") 0o644)]⟩, [], []⟩, [], .never, "0"⟩
    let visited := (Insertion.visit .sound (some ⟨8⟩) path (twoMessages "") twoMessagesEntries).run s
    visited.1 = (⟨false, 1⟩, some ⟨9⟩) ∧ (visited.2.disk.read path).toOption = some (twoMessages "[ref: 8] ") ∧
      s.disk.Rewritten path (twoMessages "") (twoMessages "[ref: 8] ") visited.2.disk ∧
      ∃ entries notices, (entriesInTree messageQuery (twoMessages "[ref: 8] ")
          (Rust.parse (twoMessages "[ref: 8] "))).run.run [] = (.ok entries, notices) ∧
        entries.map Entry.macroName = ["m", "m"] ∧ entries.map Entry.reference = [some 8, some 7] ∧
        ∀ (device : Device) (again : Option Counter) (later : Session),
          (Insertion.visit device again path (twoMessages "[ref: 8] ") entries).run later =
            ((⟨false, 0⟩, again), later) := by
  intro path s visited
  have hfits : (Rust.parse (twoMessages "")).Fits (twoMessages "") := by
    rw [parse_twoMessages.1]
    decide +kernel
  have hcode : Utf8.decode (twoMessages "") = .ok "m!(\"a\");m!(\"[ref: 7] b\")".toList := by rfl
  have hmode : messageQuery.inArguments = false := rfl
  obtain ⟨entries, notices, hfound, hall⟩ := messages_round_trip hmode rfl Rust.parse hcode hfits
  have hentries := (congrArg Prod.fst hfound).symm.trans (exists_entries_of_messages hmode hcode hfits [])
  have hsorted : ((twoMessagesTree 0).invocations (twoMessages "")).Pairwise
      fun a b => a.nameStart ≤ b.nameStart := by decide +kernel
  rw [parse_twoMessages.1, Node.sortedInvocations_of_sorted hsorted] at hentries
  have hvalues : ((twoMessagesTree 0).invocations (twoMessages "")).filterMap (Invocation.entryOf messageQuery
      "m!(\"a\");m!(\"[ref: 7] b\")".toList (twoMessages "")) = twoMessagesEntries := by
    decide +kernel
  rw [hvalues] at hentries
  obtain rfl := Except.ok.inj hentries
  have hedited : (numbering 8 twoMessagesEntries).apply (twoMessages "") = twoMessages "[ref: 8] " := by decide +kernel
  obtain ⟨_, hdone, hrewritten, entries, notices, hfound, hnames, hreferences, hagain⟩ :=
    hall .sound 8 path s _ _ _ rfl rfl (by decide +kernel) (by
      rw [hedited, parse_twoMessages.1, parse_twoMessages.2]
      decide +kernel)
  rw [hedited] at hdone
  subst hdone
  exact ⟨by decide +kernel, by decide +kernel, hrewritten, entries, notices, hfound, hnames, hreferences, hagain⟩

end LogRef
