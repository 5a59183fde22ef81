/-!
# Character classes

Ranges of code points, ends included, in ascending order. A class is a list of ranges and membership is
a scan of it.
-/
namespace LogRef.Text

/-- Whether a code point lies in one of the ranges. -/
def inRanges (table : List (Nat × Nat)) (n : Nat) : Bool :=
  table.any fun r => r.1 ≤ n && n ≤ r.2

end LogRef.Text
