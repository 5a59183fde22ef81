import LogRef.Reference.Id

/-!
# Counters

A counter hands out ids in ascending order, as long as they fit in an annotation.
-/
namespace LogRef

structure Counter where
  next : Int
  deriving DecidableEq, Repr

/-- An id that does not fit in an annotation. -/
structure Overflow where
  id : Int
  deriving DecidableEq, Repr

def Overflow.message (e : Overflow) : String := s!"Reference ID {e.id} exceeds {greatestId}"

/-- The next id and the counter after it. -/
def Counter.fetch (c : Counter) : Except Overflow (Int × Counter) :=
  if (greatestId : Int) < c.next then .error ⟨c.next⟩ else .ok (c.next, ⟨c.next + 1⟩)

end LogRef
