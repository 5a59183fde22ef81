import LogRef.Proofs.Reference.Reading
import LogRef.Proofs.Rust.Ranges

/-!
# Ids that cannot be read

Searching a source fails in one case only: a call that is read for its `ref` argument gives it more digits than
are read as a number.
-/
namespace LogRef

/-- Decimal digits, and more of them than are read as a number. -/
def IsOverlong (text : List Char) : Prop := text.all isAsciiDigit = true ∧ digitLimit < text.length

/-- The call has a message, and a `ref` argument that is overlong. -/
def Call.IsOverlong (call : Call) : Prop :=
  call.message.isSome = true ∧ ∃ argument, call.keyValues.find? (·.key = referenceKey) = some argument ∧
    LogRef.IsOverlong (Text.trim argument.valueText.toList)

/-- Some call of a source that is read for its `ref` argument is overlong. -/
def Query.Overlong (query : Query) (source : Bytes) : Prop :=
  ∃ code parsed, Utf8.decode source = .ok code ∧ callsOfTree source (query.parse source) = .ok parsed ∧
    ∃ call ∈ parsed.calls, query.reading code call = .argument ∧ call.IsOverlong

theorem readId_error {text : List Char} {e : TooManyDigits} :
    readId text = .error e ↔ IsOverlong text ∧ e = ⟨text.length⟩ := by
  unfold readId IsOverlong
  constructor
  · intro h
    split at h
    · cases h
    · next hdigits =>
      rw [Bool.or_eq_true_iff, not_or, Bool.not_eq_true', Bool.not_eq_false] at hdigits
      split at h
      · next hlong => exact ⟨⟨hdigits.2, hlong⟩, (Except.error.inj h).symm⟩
      · cases h
  · rintro ⟨⟨hdigits, hlong⟩, rfl⟩
    have hsome : text.isEmpty = false := by
      cases text with
      | nil => exact absurd hlong (Nat.not_lt_zero _)
      | cons c rest => rfl
    rw [hsome, hdigits, if_neg (by decide), if_pos hlong]

theorem argumentEntry_error {call : Call} : (∃ e, argumentEntry call = .error e) ↔ call.IsOverlong := by
  unfold argumentEntry Call.IsOverlong
  cases call.message with
  | none => exact ⟨fun ⟨_, h⟩ => (nomatch h), fun h => absurd h.1 Bool.false_ne_true⟩
  | some message =>
    rw [Option.isNone_some, Option.isSome_some, if_neg Bool.false_ne_true]
    cases hfind : call.keyValues.find? (·.key = referenceKey) with
    | none => exact ⟨fun ⟨_, h⟩ => (nomatch h), fun ⟨_, _, h, _⟩ => (nomatch h)⟩
    | some argument =>
      dsimp only
      unfold givenEntry
      cases hread : readId (Text.trim argument.valueText.toList) with
      | ok id =>
        refine ⟨fun ⟨_, h⟩ => (nomatch h), fun ⟨_, _, h, hlong⟩ => ?_⟩
        cases h
        rw [readId_error.mpr ⟨hlong, rfl⟩] at hread
        cases hread
      | error e => exact ⟨fun _ => ⟨rfl, argument, rfl, (readId_error.mp hread).1⟩, fun _ => ⟨e, rfl⟩⟩

/-- A parser whose trees are inside of their sources. -/
def ParsesInside (parse : Bytes → Node) : Prop := ∀ source, (parse source).InRange source.length false

/-- Searching a source fails if and only if a call in it is overlong. -/
theorem findEntries_error {query : Query} {source : Bytes} {ns : List Notice} (hparse : ParsesInside query.parse) :
    (∃ f, ((findEntries query source).run.run ns).1 = .error f) ↔ query.Overlong source := by
  unfold findEntries entriesInTree Query.Overlong
  cases hcode : Utf8.decode source with
  | error e =>
    constructor
    · rintro ⟨_, h⟩
      cases h
    · rintro ⟨_, _, h, _⟩
      cases h
  | ok code =>
    cases hcalls : callsOfTree source (query.parse source) with
    | error e =>
      rw [callsOfTree_eq (hparse source)] at hcalls
      cases hcalls
    | ok parsed =>
      simp only
      rw [fst_callEntries]
      cases hall : parsed.calls.mapM fun call => (query.reading code call).entry call with
      | error f =>
        obtain ⟨call, hcall, hentry⟩ := mapM_error hall
        refine ⟨fun _ => ⟨code, parsed, rfl, rfl, call, hcall, ?_⟩, fun _ => ⟨f, rfl⟩⟩
        cases hreading : query.reading code call with
        | nothing => rw [hreading] at hentry; cases hentry
        | message => rw [hreading] at hentry; cases hentry
        | argument =>
          rw [hreading, Reading.entry] at hentry
          refine ⟨rfl, argumentEntry_error.mp ?_⟩
          cases hargument : argumentEntry call with
          | error e => exact ⟨e, rfl⟩
          | ok entry => rw [hargument] at hentry; cases hentry
      | ok entries =>
        constructor
        · rintro ⟨_, h⟩
          cases h
        · rintro ⟨_, _, hcode', hcalls', call, hcall, hreading, hlong⟩
          cases hcode'
          cases hcalls'
          obtain ⟨entry, hentry⟩ := (mapM_ok hall).1 call hcall
          obtain ⟨e, he⟩ := argumentEntry_error.mpr hlong
          rw [hreading, Reading.entry, he] at hentry
          cases hentry

end LogRef
