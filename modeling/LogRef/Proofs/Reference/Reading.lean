import LogRef.Proofs.Directive.Stability
import LogRef.Proofs.Results
import LogRef.Proofs.Source.Characters
import LogRef.Proofs.Syntax.Message
import LogRef.Reference.Find

/-!
# Reading calls

What is read of a call depends on the directive before its line only. Texts put in behind characters that no
directive has in it leave that as it is.
-/
namespace LogRef

/-- What is read of a call: nothing, or the reference in its message or among its arguments. -/
inductive Reading
  | nothing
  | message
  | argument

/-- Where the line of a call begins. -/
def Call.lineOffset (code : List Char) (call : Call) : Nat :=
  (charLineStarts code).getD (clampOffset (charLineStarts code).length (call.nameSpan.line - 1)) 0

def Query.reading (query : Query) (code : List Char) (call : Call) : Reading :=
  if query.names.contains call.name then
    if isDirected query.comments ignoreDirective code (call.lineOffset code) then .nothing
    else if !query.inArguments || isDirected query.comments messageOnlyDirective code
      (call.lineOffset code) then .message
    else .argument
  else .nothing

def Reading.entry (call : Call) : Reading → Except Fault (Option Entry)
  | .nothing => .ok none
  | .message => .ok (messageEntry call)
  | .argument => (argumentEntry call).mapError .tooManyDigits

/-- The entry for a message. -/
def Entry.ofMessage (name : String) (span : Span) (text : List Char) : Entry where
  position := span.position
  reference := (readMark text).map Int.ofNat
  macroName := lastName name
  site := .message
  before := none
  after := none

namespace Reporting

variable {α β : Type} {x : Reporting α} {k : α → Reporting β} {ns ms : List Notice}

theorem run_bind_ok {a : α} (h : x.run.run ns = (.ok a, ms)) :
    (x >>= k).run.run ns = (k a).run.run ms := by
  rw [ExceptT.run_bind, StateT.run_bind, h]
  rfl

theorem run_bind_error {f : Fault} (h : x.run.run ns = (.error f, ms)) :
    (x >>= k).run.run ns = (.error f, ms) := by
  rw [ExceptT.run_bind, StateT.run_bind, h]
  rfl

/-- Work on a list that does not look at the notices has the result of the work without them. -/
theorem fst_mapM {f : α → Reporting β} {g : α → Except Fault β}
    (h : ∀ a ns, ((f a).run.run ns).1 = g a) (l : List α) (ns : List Notice) :
    ((l.mapM f).run.run ns).1 = l.mapM g := by
  induction l generalizing ns with
  | nil => rfl
  | cons a l ih =>
    rw [List.mapM_cons, List.mapM_cons]
    have ha := h a ns
    cases hrun : (f a).run.run ns with
    | mk result ms =>
      rw [hrun] at ha
      cases result with
      | error e => rw [run_bind_error hrun, ← ha]; rfl
      | ok b =>
        rw [run_bind_ok hrun, ← ha]
        have hl := ih ms
        cases hrest : (l.mapM f).run.run ms with
        | mk results ms' =>
          rw [hrest] at hl
          cases results with
          | error e => rw [run_bind_error hrest, ← hl]; rfl
          | ok bs => rw [run_bind_ok hrest, ← hl]; rfl

end Reporting

variable {query : Query} {source : Bytes} {code : List Char} {n n' : Node} {e : Edits}

theorem fst_callEntry (call : Call) (ns : List Notice) :
    (((if query.names.contains call.name then callEntry query code (call.lineOffset code) call
      else return none : Reporting (Option Entry))).run.run ns).1 =
        (query.reading code call).entry call := by
  unfold Query.reading callEntry
  split
  · split
    · rfl
    · split
      · rfl
      · rw [Reading.entry]
        cases argumentEntry call <;> rfl
  · rfl

theorem fst_callEntries (calls : List Call) (ns : List Notice) :
    ((callEntries query code calls).run.run ns).1 =
      (calls.mapM fun call => (query.reading code call).entry call).map (·.filterMap id) := by
  have hall := Reporting.fst_mapM (@fst_callEntry query code) calls ns
  unfold callEntries
  rw [← hall]
  cases hrun : ((calls.mapM fun call => if query.names.contains call.name then
      callEntry query code (call.lineOffset code) call else return none).run.run ns) with
  | mk result ms =>
    cases result with
    | error f => exact congrArg Prod.fst (Reporting.run_bind_error hrun)
    | ok entries => exact congrArg Prod.fst (Reporting.run_bind_ok hrun)

/-- The entry of an invocation, if there is something to read of it. -/
def Invocation.read (query : Query) (code : List Char) (source : Bytes) (v : Invocation) :
    Except Fault (Option Entry) :=
  (query.reading code (v.call source (byteLineStarts source))).entry
    (v.call source (byteLineStarts source))

/-- The entry of an invocation that can be read. -/
def Invocation.entryOf (query : Query) (code : List Char) (source : Bytes) (v : Invocation) :
    Option Entry := (v.read query code source).toOption.join

theorem Invocation.entryOf_nothing {v : Invocation}
    (h : query.reading code (v.call source (byteLineStarts source)) = .nothing) :
    v.entryOf query code source = none := by
  rw [entryOf, read, h]
  rfl

theorem Invocation.entryOf_message {v : Invocation}
    (h : query.reading code (v.call source (byteLineStarts source)) = .message) :
    v.entryOf query code source = messageEntry (v.call source (byteLineStarts source)) := by
  rw [entryOf, read, h]
  rfl

/-- The entries of a source are those of its invocations, one by one. -/
theorem Node.InRange.entries_eq (hin : n.InRange source.length false) (hcode : Utf8.decode source = .ok code)
    (ns : List Notice) :
    ((entriesInTree query source n).run.run ns).1 =
      ((n.sortedInvocations source).mapM (Invocation.read query code source)).map (·.filterMap id) := by
  rw [entriesInTree, hcode, callsOfTree_eq hin]
  simp only
  rw [fst_callEntries, List.mapM_map]
  rfl

theorem fst_entriesInTree (hcode : Utf8.decode source = .ok code) (hf : n.Fits source)
    (ns : List Notice) :
    ((entriesInTree query source n).run.run ns).1 =
      ((n.sortedInvocations source).mapM (Invocation.read query code source)).map (·.filterMap id) :=
  (hf.inRange false).entries_eq hcode ns

/-- Where the invocations are in the order of their names already, it is enough to read them one after the other. -/
theorem found_of_reads (hcode : Utf8.decode source = .ok code) (hf : n.Fits source)
    (hsorted : (n.invocations source).Pairwise fun a b => a.nameStart ≤ b.nameStart) {entries : List Entry}
    (hread : ((n.invocations source).mapM (Invocation.read query code source)).toOption.map (·.filterMap id) =
      some entries) (ns : List Notice) : ((entriesInTree query source n).run.run ns).1 = .ok entries := by
  rw [fst_entriesInTree hcode hf, Node.sortedInvocations_of_sorted hsorted]
  cases hall : (n.invocations source).mapM (Invocation.read query code source) with
  | error f => rw [hall] at hread; cases hread
  | ok os => rw [hall] at hread; exact congrArg Except.ok (Option.some.inj hread)

/-- Where the entries of a source were found, every invocation could be read. -/
theorem Node.InRange.entries_of_found (hin : n.InRange source.length false) (hcode : Utf8.decode source = .ok code)
    {ns : List Notice} {entries : List Entry} (h : ((entriesInTree query source n).run.run ns).1 = .ok entries) :
    entries = (n.sortedInvocations source).filterMap (Invocation.entryOf query code source) ∧
      ∀ v ∈ n.sortedInvocations source, v.read query code source = .ok (v.entryOf query code source) := by
  rw [hin.entries_eq hcode] at h
  cases hm : (n.sortedInvocations source).mapM (Invocation.read query code source) with
  | error f => rw [hm] at h; cases h
  | ok os =>
    rw [hm] at h
    obtain ⟨hall, hos⟩ := mapM_ok hm
    refine ⟨?_, fun v hv => ?_⟩
    · obtain rfl : os.filterMap id = entries := Except.ok.inj h
      rw [hos, List.filterMap_filterMap]
      refine List.filterMap_congr fun v hv => ?_
      obtain ⟨o, ho⟩ := hall v hv
      rw [Invocation.entryOf, ho]
      rfl
    · obtain ⟨o, ho⟩ := hall v hv
      rw [Invocation.entryOf, ho]
      rfl

theorem entries_of_found (hcode : Utf8.decode source = .ok code) (hf : n.Fits source) {ns : List Notice}
    {entries : List Entry} (h : ((entriesInTree query source n).run.run ns).1 = .ok entries) :
    entries = (n.sortedInvocations source).filterMap (Invocation.entryOf query code source) ∧
      ∀ v ∈ n.sortedInvocations source, v.read query code source = .ok (v.entryOf query code source) :=
  (hf.inRange false).entries_of_found hcode h

theorem fst_entriesInTree_edited {code' : List Char} (hcode : Utf8.decode (e.apply source) = .ok code')
    (hf : n.Fits source) (hs : e.Suits source n) (hm : n.Moves e false n')
    (hr : n'.ReadsArguments e (e.apply source)) (ns : List Notice) :
    ((entriesInTree query (e.apply source) n').run.run ns).1 =
      ((n.sortedInvocations source).mapM fun (v : Invocation) =>
        (v.grown e (e.apply source)).read query code' (e.apply source)).map (·.filterMap id) := by
  rw [entriesInTree, hcode, hm.calls_eq hf hs hr]
  simp only
  rw [fst_callEntries, List.mapM_map, List.mapM_map]
  rfl

theorem Invocation.lineOffset_call {v : Invocation} (hv : 0 ≤ v.nameStart) :
    (v.call source (byteLineStarts source)).lineOffset code =
      (charLineStarts code).getD ((source.take v.nameStart.toNat).count lineFeed) 0 := by
  have hline : (v.call source (byteLineStarts source)).nameSpan.line =
      (source.take v.nameStart.toNat).count lineFeed + 1 := Span.line_ofRange hv
  rw [Call.lineOffset, hline, clampOffset, if_neg (by omega), Int.add_sub_cancel, Int.toNat_natCast]

/-- Texts that are fit for their lines do not change what is read of a call. -/
theorem reading_grown (hq : query.comments = CommentPattern.slashes)
    (hcode : Utf8.decode source = .ok code) (hline : ∀ p, '\n' ∉ e.text p)
    (hfit : ∀ i, e.charText code i ≠ [] → FitsLine code i (e.charText code i)) {v : Invocation}
    (hv : v.Laid source) :
    query.reading (weave (e.charText code) 0 code)
        ((v.grown e (e.apply source)).call (e.apply source) (byteLineStarts (e.apply source))) =
      query.reading code (v.call source (byteLineStarts source)) := by
  have hcount : (source.take v.nameStart.toNat).count lineFeed ≤ code.count '\n' := by
    rw [← Utf8.count_encode, Utf8.encode_of_decode hcode]
    exact List.Sublist.count_le _ (List.take_sublist _ _)
  have hsame (name : List Char) (hn : Excludes name) :=
    isDirected_weave hn hfit hcount
  have hoffset : ((v.grown e (e.apply source)).call (e.apply source)
      (byteLineStarts (e.apply source))).lineOffset (weave (e.charText code) 0 code) =
      (charLineStarts (weave (e.charText code) 0 code)).getD
        ((source.take v.nameStart.toNat).count lineFeed) 0 := by
    rw [Invocation.lineOffset_call Edits.right_nonneg, Invocation.grown,
      Edits.line_right hline hv.named hv.nameWithin]
  have hname : ((v.grown e (e.apply source)).call (e.apply source)
      (byteLineStarts (e.apply source))).name = (v.call source (byteLineStarts source)).name := rfl
  unfold Query.reading
  rw [hoffset, Invocation.lineOffset_call hv.named, hq, hname, hsame _ excludes_ignore,
    hsame _ excludes_messageOnly]

end LogRef
