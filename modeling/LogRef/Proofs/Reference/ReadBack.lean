import LogRef.Proofs.Reference.ArgumentRoundTrip
import LogRef.Proofs.Reference.MessageRoundTrip

/-!
# References that are read back

Once ids are put into a source, each reference that is found in it was there before or is one of those ids. That takes a
parser that moves the boundaries of its tree past the texts put in and, where references live in arguments, reads new
arguments as their tokens.
-/
namespace LogRef

variable {q : Query} {source : Bytes} {code : List Char} {entries entries' : List Entry} {start : Nat} {c : Counter}

namespace Insertion

/-- Once ids from `c` on are put in, each reference in a source was there before or is one of them. -/
def ReadsBack (q : Query) (old : Bytes) (c : Counter) : Prop :=
  ∀ entries, ((findEntries q old).run.run []).1 = .ok entries →
    isAscending ((pending entries).map fun e => e.position.offset) = true →
    ∀ new c', splice old 0 (pending entries) c = (.ok new, c') →
      ∀ entries', ((findEntries q new).run.run []).1 = .ok entries' → ∀ e' ∈ entries', ∀ n ∈ e'.reference,
        (∃ e ∈ entries, e.reference = some n) ∨ c.next ≤ n ∧ n < c'.next

/-- What it takes of a parser to read a source with ids from `start` on back: its tree fits the source, and with the
texts put in it has its boundaries moved past them. Where references live in arguments, moreover, comments are closed,
every call that is to get an argument admits one, and new arguments are read as their tokens. -/
structure Retraces (q : Query) (source : Bytes) (entries : List Entry) (start : Nat) : Prop where
  fits : (q.parse source).Fits source
  moves : (q.parse source).Moves (numbering start entries) false (q.parse ((numbering start entries).apply source))
  arguments : q.inArguments = true → (q.parse source).closesComments source = true ∧
    (∀ code, Utf8.decode source = .ok code → Admitted q source code (q.parse source)) ∧
    (q.parse ((numbering start entries).apply source)).ReadsArguments (numbering start entries)
      ((numbering start entries).apply source)

end Insertion

end LogRef
